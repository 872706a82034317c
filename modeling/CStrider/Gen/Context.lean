import CStrider.Gen.Kt

/-!
# The generator's tables (`gencontext`, `tools/cstridgen.ml`)

The generator numbers the types of the program by their position in `macrotypes`. Seven lists grow
side by side and end up as the arrays of the generated file; the texts are kept without the `", "`
behind each. Failures (`failwith`, `exitError`, `assert`) end the generator.
-/

namespace CStrider.Gen

/-- The growing part of `gencontext`. -/
structure GenCtx where
  /-- `none` is the empty string with which it starts -/
  curXform : Option Func
  macrotypes : List Macro
  maintype : List Macro
  targetType : List Macro
  ptrtomeType : List Macro
  arrlens : List Int
  sizes : List String
  funs : List (Option Func)
  storedNumGenArgs : List (Macro × Nat)
  storedGenArgs : List (Macro × List Macro)

abbrev GenM := StateT GenCtx (Except String)

/-- The built-in types. -/
def builtins : List (Macro × String) :=
  [(.lit "TYPE_CHAR", "sizeof(char)"), (.lit "TYPE_SIGNED_CHAR", "sizeof(signed char)"),
    (.lit "TYPE_UNSIGNED_CHAR", "sizeof(unsigned char)"), (typeCharNT, "sizeof(char*)"),
    (.lit "TYPE_BOOL", "sizeof(_Bool)"), (.lit "TYPE_INT", "sizeof(int)"),
    (.lit "TYPE_UNSIGNED_INT", "sizeof(unsigned int)"), (.lit "TYPE_SHORT", "sizeof(short)"),
    (.lit "TYPE_UNSIGNED_SHORT", "sizeof(unsigned short)"), (.lit "TYPE_LONG", "sizeof(long)"),
    (.lit "TYPE_UNSIGNED_LONG", "sizeof(unsigned long)"),
    (.lit "TYPE_LONG_LONG", "sizeof(long long)"),
    (.lit "TYPE_UNSIGNED_LONG_LONG", "sizeof(unsigned long long)"),
    (.lit "TYPE_FLOAT", "sizeof(float)"), (.lit "TYPE_DOUBLE", "sizeof(double)"),
    (.lit "TYPE_LONG_DOUBLE", "sizeof(long double)"), (typeFunptr, "sizeof(void *)"),
    (typeOpaquePtr, "sizeof(void *)")]

/-- `gencontext_create`. -/
def gencontextCreate : GenCtx where
  curXform := none
  macrotypes := builtins.map Prod.fst
  maintype := builtins.map Prod.fst
  targetType := builtins.map fun _ => .lit "-1"
  ptrtomeType := builtins.map fun _ => .lit "-1"
  arrlens := builtins.map fun _ => 0
  sizes := builtins.map Prod.snd
  funs := builtins.map fun _ => some .transformPrim
  storedNumGenArgs := []
  storedGenArgs := []

/-- `populate_type_info`. -/
def GenCtx.populate (g : GenCtx) (macrot maint targett ptrto : Macro) (arrlen : Int)
    (size : String) (f : Option Func) : GenCtx :=
  { g with
    macrotypes := g.macrotypes ++ [macrot]
    maintype := g.maintype ++ [maint]
    targetType := g.targetType ++ [targett]
    ptrtomeType := g.ptrtomeType ++ [ptrto]
    arrlens := g.arrlens ++ [arrlen]
    sizes := g.sizes ++ [size]
    funs := g.funs ++ [f] }

/-- The two rows that `append_deref` adds for a pointer to `s`. -/
def GenCtx.addPtr (g : GenCtx) (s : Macro) : GenCtx :=
  (g.populate s.ptr s.ptr s (.lit "0") (-1) "sizeof (void * )" g.curXform).populate
    s.out.ptr s.ptr s (.lit "0") (-1) "sizeof (void * )" g.curXform

/-! ## Program elements -/

def Elem.typ : Elem → KtTyp
  | .typedef nm => .named nm []
  | .struct nm => .struct nm []
  | .union nm => .union nm []
  | .enum nm => .enum nm

def oldRename (nm : String) : String := "_kitsune_old_rename_" ++ nm

def newRename (nm : String) : String := "_kitsune_new_rename_" ++ nm

/-- The name that `render_type` enters for an element under `AddMacro`. -/
def Elem.typeMacro (e : Elem) : Macro := .lit (.elem e)

/-- `render_type` under `AddMacro`, with the renamer already applied in `m`. -/
def GenCtx.addMacro (g : GenCtx) (m : Macro) : GenCtx :=
  { g with
    macrotypes := g.macrotypes ++ [m]
    maintype := g.maintype ++ [m]
    targetType := g.targetType ++ [.lit "-1"]
    ptrtomeType := g.ptrtomeType ++ [.lit "-1"]
    arrlens := g.arrlens ++ [0] }

def Elem.sizeof (rename : String → String) : Elem → String
  | .typedef nm => "sizeof(" ++ rename nm ++ ")"
  | .struct nm => "sizeof(struct " ++ rename nm ++ ")"
  | .union nm => "sizeof(union " ++ rename nm ++ ")"
  | .enum nm => "sizeof(enum " ++ rename nm ++ ")"

/-- `render_type` under `AddSizeOf`. -/
def GenCtx.addSizeOf (g : GenCtx) (size : String) : GenCtx := { g with sizes := g.sizes ++ [size] }

def GenCtx.addFun (g : GenCtx) (f : Func) : GenCtx := { g with funs := g.funs ++ [some f] }

/-- What `generate_trans_func` appends for a matched element: two names, the function twice, two
sizes. `out_MACRO_rename` puts the `_OUT` behind the name of the new version. -/
def GenCtx.addElem (g : GenCtx) (e0 e1 : Elem) (f : Func) : GenCtx :=
  ((g.addMacro e0.typeMacro).addMacro e1.typeMacro.out).addFun f |>.addFun f
    |>.addSizeOf (e0.sizeof oldRename) |>.addSizeOf (e1.sizeof newRename)

/-- A generic instance, the type `head` with arguments; `main` is the entry in
`macrotypes_generics_maintype`. -/
structure Instance where
  head : Macro
  args : List Macro
  main : Macro
  mainOut : Macro
  target : Macro
  targetOut : Macro
  ptrto : Macro
  size0 : String
  size1 : String
  func : Func

def Instance.name (i : Instance) : Macro := .ofArgs i.head i.args

/-- `has_generics'` stores the arguments of an instance and populates its two rows. -/
def GenCtx.addInstance (g : GenCtx) (i : Instance) : GenCtx :=
  let g := { g with
    storedNumGenArgs := g.storedNumGenArgs ++ [(i.name, i.args.length)]
    storedGenArgs := g.storedGenArgs ++ [(i.name, i.args)] }
  (g.populate i.name i.main i.target i.ptrto 0 i.size0 (some i.func)).populate
    i.name.out i.mainOut i.targetOut i.ptrto 0 i.size1 (some i.func)

/-! ## Extensions -/

/-- All that the generator does to its tables. -/
inductive Extension where
  /-- `gencontext_set_xform`, with the two versions of the type that the function is for -/
  | setXform (t0 t1 : KtTyp) (f : Func)
  | ptr (s : Macro)
  | elem (e0 e1 : Elem) (f : Func)
  | inst (i : Instance)

def Extension.apply (x : Extension) (g : GenCtx) : GenCtx :=
  match x with
  | .setXform _ _ f => { g with curXform := some f }
  | .ptr s => g.addPtr s
  | .elem e0 e1 f => g.addElem e0 e1 f
  | .inst i => g.addInstance i

def extend (x : Extension) : GenM Unit := modify x.apply

/-- A type is known by its text. -/
def GenCtx.Lists (g : GenCtx) (m : Macro) : Prop := m.text ∈ g.macrotypes.map Macro.text

instance (g : GenCtx) (m : Macro) : Decidable (g.Lists m) := inferInstanceAs (Decidable (_ ∈ _))

/-- `if not (L.exists (fun x -> x = (m ^ ", ")) !(gen_ctx.macrotypes)) then act`. -/
def unlessListed (m : Macro) (act : GenM Unit) : GenM Unit := do
  if (← get).Lists m then pure () else act

/-- `append_deref`. -/
def appendDeref (s : Macro) : Nat → GenM Macro
  | 0 => pure s
  | d + 1 =>
    if s.hasArrow then pure s
    else do
      unlessListed s.ptr (extend (.ptr s))
      appendDeref s.ptr d

end CStrider.Gen
