import CStrider.Gen.Kt
import Mathlib.Data.List.Dedup

/-!
# The order of the generated definitions (`write_ordered_symbols`, `tools/cstridgen.ml`)

Rendering a definition records what it mentions: **hard** what it contains by value, **soft** what
it only points to. `write_ordered_symbols` then writes the transformation functions and, for every
struct or union of which a prototype was written, its definition, each after what it needs.

The recursion is bounded by the marks: it only goes on below a key that was not started. Here it
has a fuel argument, and running out of fuel is one of the errors.
-/

namespace CStrider.Gen

/-- `elem_key`: a typedef, a function, and a struct, union or enum. -/
inductive Key where
  | td (s : String)
  | fn (s : String)
  | o (s : String)
  deriving DecidableEq, Repr

def Key.isTd : Key → Bool
  | .td _ => true
  | _ => false

def Key.isFn : Key → Bool
  | .fn _ => true
  | _ => false

/-! ## Dependencies -/

/-- `hard_deps` and `soft_deps`, newest entries first. -/
structure Deps where
  soft : List (Key × Key)
  hard : List (Key × Key)

/-- `H.find_all`. -/
def findAll (h : List (Key × Key)) (k : Key) : List Key := (h.filter (·.1 = k)).map Prod.snd

/-- `gencontext_add_dep` for the current element `f`. -/
def Deps.addDep (ds : Deps) (f : Key) (isHard : Bool) (d : Key) : Deps :=
  if isHard then
    if f ≠ d ∧ d ∉ findAll ds.hard f then { ds with hard := (f, d) :: ds.hard } else ds
  else if f ≠ d ∧ d ∉ findAll ds.soft f then { ds with soft := (f, d) :: ds.soft } else ds

mutual

/-- The dependencies that `render_type` adds under `AddDep`, in their order. -/
def typeDeps (rename : String → String) : KtTyp → (underPtr : Bool) → List (Bool × Key)
  | .ptr t _ _, _ | .ptrOpaque t, _ | .ptrArray t _ _, _ => typeDeps rename t true
  | .array t _, underPtr => typeDeps rename t underPtr
  | .fn rt args _, _ => argDeps rename args ++ typeDeps rename rt true
  | .named nm _, underPtr => [(!underPtr, .td (rename nm))]
  | .struct nm _, underPtr => [(!underPtr, .o ("struct " ++ rename nm))]
  | .union nm _, underPtr => [(!underPtr, .o ("union " ++ rename nm))]
  | .enum nm, underPtr => [(!underPtr, .o ("enum " ++ rename nm))]
  | .void _, _ | .int _, _ | .float _, _ | .vaList, _ => []

def argDeps (rename : String → String) : List (String × KtTyp) → List (Bool × Key)
  | [] => []
  | (_, t) :: args => typeDeps rename t true ++ argDeps rename args

end

/-- The elements that `handle_elem` renders with dependencies. -/
inductive TopElem where
  | struct (nm : String) (fields : List KtTyp)
  | union (nm : String) (fields : List KtTyp)
  | typeDef (nm : String) (t : KtTyp)

def TopElem.key (rename : String → String) : TopElem → Key
  | .struct nm _ => .o ("struct " ++ rename nm)
  | .union nm _ => .o ("union " ++ rename nm)
  | .typeDef nm _ => .td (rename nm)

def TopElem.types : TopElem → List KtTyp
  | .struct _ ts | .union _ ts => ts
  | .typeDef _ t => [t]

/-- `handle_struct`, `handle_union` and `handle_typedef`. -/
def Deps.handleElem (rename : String → String) (ds : Deps) (e : TopElem) : Deps :=
  (e.types.flatMap fun t => typeDeps rename t false).foldl
    (fun ds d => ds.addDep (e.key rename) d.1 d.2) ds

/-- What `write_ordered_symbols` reads of the context. A transformation function has its
dependencies from `local_in` and `local_out`, which are pointers, and from the functions that it
enqueues, so that no function is in `hard_deps`. -/
structure Symbols where
  keys : List Key
  soft : Key → List Key
  hard : Key → List Key
  rendered : Key → Bool
  prototypes : Key → Bool
  xformFuns : List String
  soft_mem : ∀ {k d}, d ∈ soft k → d ∈ keys
  hard_mem : ∀ {k d}, d ∈ hard k → d ∈ keys
  hard_key : ∀ {k d}, d ∈ hard k → k ∈ keys
  xform_mem : ∀ {f}, f ∈ xformFuns → .fn f ∈ keys
  fn_hard : ∀ f, hard (.fn f) = []
  hard_fn : ∀ {k f}, Key.fn f ∉ hard k

theorem mem_findAll {h : List (Key × Key)} {k d : Key} : d ∈ findAll h k ↔ (k, d) ∈ h := by
  simp [findAll]

/-- The context after everything is rendered. -/
def Symbols.ofDeps (ds : Deps) (rendered prototypes : Key → Bool) (xformFuns : List String)
    (hf : ∀ p ∈ ds.hard, p.1.isFn = false ∧ p.2.isFn = false) : Symbols where
  keys := (ds.soft ++ ds.hard).flatMap (fun p => [p.1, p.2]) ++ xformFuns.map .fn
  soft := findAll ds.soft
  hard := findAll ds.hard
  rendered := rendered
  prototypes := prototypes
  xformFuns := xformFuns
  soft_mem h := List.mem_append_left _ (List.mem_flatMap.mpr
    ⟨_, List.mem_append_left _ (mem_findAll.mp h), by simp⟩)
  hard_mem h := List.mem_append_left _ (List.mem_flatMap.mpr
    ⟨_, List.mem_append_right _ (mem_findAll.mp h), by simp⟩)
  hard_key h := List.mem_append_left _ (List.mem_flatMap.mpr
    ⟨_, List.mem_append_right _ (mem_findAll.mp h), by simp⟩)
  xform_mem h := List.mem_append_right _ (List.mem_map_of_mem h)
  fn_hard f := List.eq_nil_iff_forall_not_mem.mpr fun d h => by
    have := (hf _ (mem_findAll.mp h)).1
    cases this
  hard_fn h := by
    have := (hf _ (mem_findAll.mp h)).2
    cases this

/-! ## `write_ordered_symbols` -/

/-- What goes to the output channel. -/
inductive Output where
  | proto (k : Key)
  | defn (k : Key)
  /-- `elem_key_to_s_placeholder` -/
  | placeholder (k : Key)
  deriving DecidableEq, Repr

inductive Failure where
  /-- "ERROR circular dependency for " -/
  | circular (k : Key)
  /-- "ERROR No entry found for key " -/
  | noEntry (k : Key)
  /-- "ERROR: circular dependencies in prototypes involving " -/
  | circularPrototype (k : Key)
  | outOfFuel
  deriving DecidableEq, Repr

structure Writer where
  written : List Key
  started : List Key
  prototypeWritten : List Key
  prototypeStarted : List Key
  out : List Output
  /-- prototypes and bodies of functions, which are written behind everything else -/
  funs : List Output
  deriving DecidableEq, Repr

def Writer.init : Writer := ⟨[], [], [], [], [], []⟩

namespace Writer

def start (w : Writer) (k : Key) : Writer := { w with started := k :: w.started }

/-- Output of a prototype or a definition of `k`. -/
def emit (w : Writer) (k : Key) (x : Output) : Writer :=
  if k.isFn then { w with funs := x :: w.funs } else { w with out := w.out ++ [x] }

/-- Output of the definition of `k`, or of what stands for it. -/
def define (w : Writer) (k : Key) (x : Output) : Writer :=
  { w with written := k :: w.written }.emit k x

end Writer

namespace Symbols

variable (G : Symbols)

/-- Output of the prototype of `k`, if there is one. -/
def markPrototype (k : Key) (w : Writer) : Writer :=
  let w := { w with
    prototypeStarted := k :: w.prototypeStarted, prototypeWritten := k :: w.prototypeWritten }
  if G.prototypes k then w.emit k (.proto k) else w

/-- The branch of `write_rendered` for a prototype. -/
def writePrototype (k : Key) (w : Writer) : Except Failure Writer :=
  if k ∉ w.prototypeWritten ∧ k ∈ w.prototypeStarted then throw (.circularPrototype k)
  else if k ∉ w.prototypeWritten then pure (G.markPrototype k w)
  else pure w

/-- The end of the branch of `write_rendered` for a typedef. -/
def finishTypedef (k : Key) (w : Writer) : Except Failure Writer :=
  if G.rendered k then pure (w.define k (.defn k)) else throw (.noEntry k)

/-- The end of the branch for a definition. -/
def finish (k : Key) (w : Writer) : Writer :=
  w.define k (if G.rendered k then .defn k else .placeholder k)

/-- `handle_dep`, where `write` is `write_rendered`. -/
def handleDep (write : Bool → Key → Writer → Except Failure Writer) (h : Bool) (w : Writer)
    (k : Key) : Except Failure Writer :=
  if k.isTd ∧ h then do
    let w ← write false k w
    (G.hard k).foldlM (fun w d => write true d w) w
  else write h k w

/-- `handle_deps`. -/
def handleDeps (write : Bool → Key → Writer → Except Failure Writer) (hard : Bool) (k : Key)
    (w : Writer) : Except Failure Writer := do
  let w ← (G.soft k).foldlM (G.handleDep write false) w
  (G.hard k).foldlM (G.handleDep write hard) w

/-- `write_rendered`. -/
def writeRendered : Nat → (hard : Bool) → Key → Writer → Except Failure Writer
  | 0, _, _, _ => throw .outOfFuel
  | fuel + 1, hard, k, w =>
    if k ∈ w.written then pure w
    else if k ∈ w.started ∨ hard = false then
      if k.isTd then
        if k ∈ w.started then throw (.circular k)
        else do
          let w ← G.handleDeps (writeRendered fuel) hard k (w.start k)
          G.finishTypedef k w
      else G.writePrototype k w
    else do
      let w ← G.handleDeps (writeRendered fuel) true k (w.start k)
      pure (G.finish k w)

/-- Enough fuel for every call. -/
def fuel : Nat := G.keys.dedup.length + 1

def write (hard : Bool) (k : Key) (w : Writer) : Except Failure Writer :=
  G.writeRendered G.fuel hard k w

/-- `L.iter (write_rendered true) !(gen_ctx.xform_funs)`. -/
def writeFuns : Except Failure Writer :=
  G.xformFuns.foldlM (fun w f => G.write true (.fn f) w) .init

/-- `check_prototypes`. -/
def checkPrototypes (w : Writer) (k : Key) : Except Failure Writer :=
  if k ∈ w.prototypeWritten ∧ k ∉ w.written then G.write true k w else pure w

/-- `write_ordered_symbols`, up to the definitions. The table `prototype_written` grows while it is
iterated: the iteration comes by the keys of `order`, and passes those that are not in the table
by then. -/
def writeOrderedSymbols (order : List Key) : Except Failure Writer := do
  let w ← G.writeFuns
  order.foldlM G.checkPrototypes w

/-- An order in which the iteration can come by the keys: none that is in the table when it
begins is left out. -/
def Order (order : List Key) : Prop :=
  ∀ w, G.writeFuns = .ok w → ∀ k ∈ w.prototypeWritten, k ∈ order

end Symbols

end CStrider.Gen
