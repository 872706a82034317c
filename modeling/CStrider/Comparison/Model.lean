import CStrider.Comparison.Lists
import CStrider.Gen.Kt

/-!
# The comparison of two versions (`tools/kttcompare.ml`, `tools/xflang.ml`)

From the global variables for which a transformation is requested, the comparison works through all
types that these need. Every comparison of two types notes the pairs of names that it meets in
`typesTodo`, and `compareXformElems` takes them from there until there are none left; meanwhile it
collects what requires a transformation, and which pair depends on which. A hash table is the list
of its bindings, the last one first. Whatever ends the tool (`failwith`, `exitError`, an exception
that nothing catches) is an error.
-/

namespace CStrider.Comparison

open CStrider.Gen (KtTyp GenDesc IKind)

/-! ## Rules (`Xftypes`, `Xflang`) -/

/-- `xf_path_elem`. -/
inductive XfElem where
  | struct (s : String)
  | union (s : String)
  | typedef (s : String)
  | enum (s : String)
  | field (s : String)
  | var (s : String)
  deriving DecidableEq, Repr

/-- `xf_path`. -/
abbrev Path := List XfElem

abbrev Paths := Path × Path

/-- `xf_rule`. -/
inductive XfRule where
  | init (toPath : Path) (code : String)
  | xform (fromPath toPath : Path) (code : Option String)

/-- The end of `type_renamed` and `find_rule`. -/
def unambiguous : List XfRule → Except String (Option XfRule)
  | [] => pure none
  | [r] => pure (some r)
  | _ => throw "Comparison terminated"

/-- `type_renamed`. -/
def typeRenamed (fromT toT : XfElem) (rules : List XfRule) : Except String (Option XfRule) :=
  unambiguous (rules.filter fun
    | .xform fromPath toPath _ => fromPath = [fromT] ∧ toPath = [toT]
    | .init .. => false)

/-- `find_rule`. -/
def findRule (fromReq toReq : Path) (rules : List XfRule) : Except String (Option XfRule) := do
  let found ← rules.filterM fun
    | .xform [] _ _ => throw "tl"
    | .xform (_ :: fromTl) toPath _ => pure (fromReq = fromTl ∧ toPath = toReq)
    | .init toPath _ => pure (toReq = toPath)
  unambiguous found

/-! ## Elements (`common/kttypes.ml`) -/

/-- `field`. -/
structure Field where
  fname : String
  ftype : KtTyp
  fgenIn : List GenDesc

/-- `struct_info`. -/
structure StructInfo where
  sname : String
  sfields : List Field
  sgenOut : List String

/-- `typedef_info`. -/
structure TypedefInfo where
  tname : String
  ttype : KtTyp
  tgenOut : List String

/-- `enumeration_info`. -/
structure EnumerationInfo where
  ename : String
  eitems : List (String × Int)
  eintkind : IKind

/-- `var_info`. -/
structure VarInfo where
  vname : String
  vtype : KtTyp
  vgenIn : List GenDesc

/-- `top_level_elem`. -/
inductive TopLevelElem where
  | struct (sinfo : StructInfo)
  | union (sinfo : StructInfo)
  | typedef (tinfo : TypedefInfo)
  | enumeration (einfo : EnumerationInfo)
  | var (vinfo : VarInfo)

/-- `elem_to_path`. -/
def TopLevelElem.path : TopLevelElem → XfElem
  | .struct sinfo => .struct sinfo.sname
  | .union sinfo => .union sinfo.sname
  | .typedef tinfo => .typedef tinfo.tname
  | .enumeration einfo => .enum einfo.ename
  | .var vinfo => .var vinfo.vname

/-- `elemToType`. -/
def TopLevelElem.typ : TopLevelElem → KtTyp
  | .struct sinfo => .struct sinfo.sname []
  | .union sinfo => .union sinfo.sname []
  | .typedef tinfo => .named tinfo.tname []
  | .enumeration einfo => .enum einfo.ename
  | .var vinfo => vinfo.vtype

/-! ## Results -/

mutual

/-- `elem_mapping`. -/
inductive ElemMapping where
  | matchInit (toPath : Path) (t : KtTyp) (code : String)
  | matchAuto (elems : Paths) (types : KtTyp × KtTyp) (generics : List String × List String)
      (info : MatchInfo)
  | unmatchedAdded (path : Path)
  | unmatchedDeleted (path : Path)
  | unmatchedType (elems : Paths)
  | external

/-- `match_info`. -/
inductive MatchInfo where
  | struct (reordered : Bool) (fields : List ElemMapping)
  | union (fields : List ElemMapping)
  | typedef (types : KtTyp × KtTyp)
  | var (genIns : List GenDesc × List GenDesc)
  | enum

end

/-! ## The context -/

/-- The tables of `compcontext`. -/
structure Tables where
  typesTodo : List Paths
  typesDone : List Paths
  requiresFullXform : List Paths
  requiresShallowXform : List Paths
  recordedMatches : List Paths
  matchFailed : List Paths
  hardDeps : List (Paths × Paths)
  ptrDeps : List (Paths × Paths)

abbrev CompM := StateT Tables (Except String)

/-- The other fields of `compcontext`. -/
structure CompContext where
  allRules : List XfRule
  addComps : Bool
  oldElems : List TopLevelElem
  newElems : List TopLevelElem
  oldPath : Path
  newPath : Path

/-- `compcontext_create`, with the tables that it creates. -/
def compcontextCreate (rules : List XfRule) (oldElems newElems : List TopLevelElem) :
    CompContext × Tables :=
  (⟨rules, true, oldElems, newElems, [], []⟩, ⟨[], [], [], [], [], [], [], []⟩)

namespace CompContext

variable (ctx : CompContext)

def paths : Paths := (ctx.oldPath, ctx.newPath)

/-- `compcontext_extend_paths`. -/
def extendPaths (pe0 pe1 : XfElem) : CompM CompContext := do
  modify fun t =>
    { t with hardDeps := ((pe0 :: ctx.oldPath, pe1 :: ctx.newPath), ctx.paths) :: t.hardDeps }
  pure { ctx with oldPath := pe0 :: ctx.oldPath, newPath := pe1 :: ctx.newPath }

/-- `compcontext_set_no_comps`. -/
def setNoComps : CompContext := { ctx with addComps := false }

/-- `compcontext_add_type_comp`. -/
def addTypeComp (throughPtr : Bool) (elems : Paths) : CompM Unit := do
  modify fun t =>
    if throughPtr then { t with ptrDeps := (elems, ctx.paths) :: t.ptrDeps }
    else { t with hardDeps := (elems, ctx.paths) :: t.hardDeps }
  modify fun t =>
    if ctx.addComps ∧ elems ∉ t.typesDone then { t with typesTodo := elems :: t.typesTodo } else t

/-- `compcontext_set_requires_full_xform`. -/
def setRequiresFullXform : CompM Unit :=
  modify fun t => { t with requiresFullXform := ctx.paths :: t.requiresFullXform }

/-- `compcontext_set_requires_shallow_xform`. -/
def setRequiresShallowXform : CompM Unit :=
  modify fun t => { t with requiresShallowXform := ctx.paths :: t.requiresShallowXform }

/-- `compcontext_set_match_failed`. -/
def setMatchFailed : CompM Unit :=
  modify fun t => { t with matchFailed := ctx.paths :: t.matchFailed }

end CompContext

/-- `compcontext_record_match`. -/
def recordMatch (elems : Paths) : CompM Unit :=
  modify fun t => { t with recordedMatches := elems :: t.recordedMatches }

/-! ## Types -/

/-- `path_elem_from_type`. -/
def pathElemFromType : KtTyp → Option (XfElem × List GenDesc)
  | .named name genIn => some (.typedef name, genIn)
  | .struct name genIn => some (.struct name, genIn)
  | .union name genIn => some (.union name, genIn)
  | _ => none

/-- The last clause of `compareTypes`; `gens` compares the generic arguments. -/
def compareNames (ctx : CompContext) (throughPtr : Bool) (fromPath toPath : XfElem)
    (gens : CompM Bool) : CompM Bool := do
  match ← typeRenamed fromPath toPath ctx.allRules with
  | some (.xform _ _ (some _)) => do
    ctx.setRequiresShallowXform
    ctx.addTypeComp throughPtr ([fromPath], [toPath])
    gens
  | some (.xform _ _ none) => do
    ctx.addTypeComp throughPtr ([fromPath], [toPath])
    gens
  | some (.init ..) => throw "compareTypes - unexpected rule"
  | none =>
    if fromPath = toPath then do
      ctx.addTypeComp throughPtr ([fromPath], [toPath])
      gens
    else do
      ctx.setRequiresFullXform
      pure false

mutual

/-- `compareTypes`. -/
def compareTypes (ctx : CompContext) : KtTyp → KtTyp → (throughPtr : Bool) → CompM Bool
  | .void gen0, .void gen1, _ => pure (gen0 = gen1)
  | .int ikind0, .int ikind1, _ => pure (ikind0 = ikind1)
  -- the source compares the first kind with itself
  | .float _, .float _, _ => pure true
  | .ptr t0 _ mem0, .ptr t1 _ mem1, _ => do
    ctx.setRequiresShallowXform
    let same ← compareTypes ctx t0 t1 true
    pure (same && mem0 = mem1)
  | .ptrOpaque _, .ptrOpaque _, _ => pure true
  | .ptrArray t0 len0 mem0, .ptrArray t1 len1 mem1, _ => do
    ctx.setRequiresShallowXform
    let same ← compareTypes ctx t0 t1 true
    pure (same && len0 = len1 && mem0 = mem1)
  | .array t0 len0, .array t1 len1, throughPtr =>
    if len0 = len1 then compareTypes ctx t0 t1 throughPtr else pure false
  | .fn .., .fn .., _ => do
    ctx.setRequiresShallowXform
    pure true
  | .vaList, .vaList, _ => pure true
  | .enum ename0, .enum ename1, _ => pure (ename0 = ename1)
  | .named nm genIn, t1, throughPtr =>
    match pathElemFromType t1 with
    | some (p1, genIn1) =>
      compareNames ctx throughPtr (.typedef nm) p1 (compareGenericIn ctx genIn genIn1 throughPtr)
    | none => pure false
  | .struct nm genIn, t1, throughPtr =>
    match pathElemFromType t1 with
    | some (p1, genIn1) =>
      compareNames ctx throughPtr (.struct nm) p1 (compareGenericIn ctx genIn genIn1 throughPtr)
    | none => pure false
  | .union nm genIn, t1, throughPtr =>
    match pathElemFromType t1 with
    | some (p1, genIn1) =>
      compareNames ctx throughPtr (.union nm) p1 (compareGenericIn ctx genIn genIn1 throughPtr)
    | none => pure false
  | _, _, _ => pure false

/-- `compareGenericIn`, a `List.for_all2`. -/
def compareGenericIn (ctx : CompContext) :
    List GenDesc → List GenDesc → (throughPtr : Bool) → CompM Bool
  | [], [], _ => pure true
  | d0 :: ds0, d1 :: ds1, throughPtr => do
    if ← compareTypeDesc ctx d0 d1 throughPtr then compareGenericIn ctx ds0 ds1 throughPtr
    else pure false
  | _, _, _ => throw "List.for_all2"

/-- `compareTypeDesc`. -/
def compareTypeDesc (ctx : CompContext) : GenDesc → GenDesc → (throughPtr : Bool) → CompM Bool
  | .ptrTo d0, .ptrTo d1, _ => compareTypeDesc ctx d0 d1 true
  | .otherGenericBinding name0, .otherGenericBinding name1, _ => pure (name0 = name1)
  | .programType t0, .programType t1, throughPtr => compareTypes ctx t0 t1 throughPtr
  | _, _, _ => pure false

end

/-- `compareTypesReport`. -/
def compareTypesReport (ctx : CompContext) (t0 t1 : KtTyp) : CompM Bool := do
  let result ← compareTypes ctx t0 t1 false
  if result then pure () else ctx.setMatchFailed
  pure result

/-! ## Fields -/

/-- The references of `compareStructFields`. -/
structure FieldState where
  fieldMatches : List ElemMapping
  reordered : Bool
  matchedRule : Option String

def pushMatch (m : ElemMapping) : StateT FieldState CompM Unit :=
  modify fun s => { s with fieldMatches := m :: s.fieldMatches }

/-- `map_key_fun` of `compareStructFields`; `none` where it raises `SkipElem`. -/
def structMapKey (ctx : CompContext) (f : Field) : StateT FieldState CompM (Option XfElem) := do
  match ← findRule ctx.oldPath (.field f.fname :: ctx.newPath) ctx.allRules with
  | none => pure (some (.field f.fname))
  | some (.xform fromPath _ (some code)) => do
    modify fun s => { s with matchedRule := some code }
    pure fromPath.head?
  | some (.xform fromPath _ none) => pure fromPath.head?
  | some (.init toPath code) => do
    ctx.setRequiresFullXform
    pushMatch (.matchInit toPath f.ftype code)
    pure none

/-- `compare_field_types` of `compareStructFields`. -/
def structCompareFieldTypes (ctx : CompContext) (f0 f1 : Field) :
    StateT FieldState CompM Unit := do
  let ctx' ← ctx.extendPaths (.field f0.fname) (.field f1.fname)
  match (← get).matchedRule with
  | none => do
    let typesMatch ← compareTypesReport ctx' f0.ftype f1.ftype
    if typesMatch then
      pushMatch (.matchAuto ctx'.paths (f0.ftype, f1.ftype) ([], [])
        (.var (f0.fgenIn, f1.fgenIn)))
    else pushMatch (.unmatchedType ctx'.paths)
  | some _ => do
    let typesMatch ← compareTypesReport ctx'.setNoComps f0.ftype f1.ftype
    modify fun s => { s with matchedRule := none }
    if typesMatch then ctx'.setNoComps.setRequiresShallowXform
    else ctx'.setNoComps.setRequiresFullXform
    pushMatch .external

def structCallbacks (ctx : CompContext) : Callbacks (StateT FieldState CompM) Field XfElem where
  keyFun f := .field f.fname
  mapKeyFun := structMapKey ctx
  compareFun := structCompareFieldTypes ctx
  addedFun f := do
    ctx.setRequiresFullXform
    ctx.setMatchFailed
    pushMatch (.unmatchedAdded (.field f.fname :: ctx.newPath))
  removedFun f := do
    ctx.setRequiresFullXform
    pushMatch (.unmatchedDeleted (.field f.fname :: ctx.newPath))

/-- `compareStructFields`. -/
def compareStructFields (ctx : CompContext) (fields0 fields1 : List Field) :
    CompM (List ElemMapping × Bool) := do
  let reorderedFun : StateT FieldState CompM Unit := do
    ctx.setRequiresFullXform
    modify fun s => { s with reordered := true }
  let (_, s) ← (utilCompareLists (structCallbacks ctx) fields0 fields1 (some reorderedFun)).run
    ⟨[], false, none⟩
  pure (s.fieldMatches.reverse, s.reordered)

/-- `compare_field_types` of `compareUnionFields`. -/
def unionCompareFieldTypes (ctx : CompContext) (f0 f1 : Field) :
    StateT (List ElemMapping) CompM Unit := do
  let ctx' ← ctx.extendPaths (.field f0.fname) (.field f1.fname)
  if ← compareTypesReport ctx' f0.ftype f1.ftype then
    modify fun ms => .matchAuto ctx'.paths (f0.ftype, f1.ftype) ([], []) (.var ([], [])) :: ms
  else modify fun ms => .unmatchedType ctx'.paths :: ms

def unionCallbacks (ctx : CompContext) :
    Callbacks (StateT (List ElemMapping) CompM) Field XfElem where
  keyFun f := .field f.fname
  mapKeyFun f := pure (some (.field f.fname))
  compareFun := unionCompareFieldTypes ctx
  addedFun f := modify fun ms => .unmatchedAdded (.field f.fname :: ctx.newPath) :: ms
  removedFun f := modify fun ms => .unmatchedDeleted (.field f.fname :: ctx.newPath) :: ms

/-- `compareUnionFields`. -/
def compareUnionFields (ctx : CompContext) (fields0 fields1 : List Field) :
    CompM (List ElemMapping) := do
  let (_, ms) ← (utilCompareLists (unionCallbacks ctx) fields0 fields1 none).run []
  pure ms.reverse

/-! ## Elements -/

def genericOutCallbacks : Callbacks (StateM Bool) String String where
  keyFun name := name
  mapKeyFun name := pure (some name)
  compareFun _ _ := pure ()
  addedFun _ := set false
  removedFun _ := set false

/-- `compareGenericOut`. -/
def compareGenericOut (go0 go1 : List String) : Bool :=
  ((utilCompareLists genericOutCallbacks go0 go1 none).run true).2

/-- `compareStructs`. -/
def compareStructs (ctx : CompContext) (sinfo0 sinfo1 : StructInfo) : CompM ElemMapping := do
  let (fieldMatches, reordered) ← compareStructFields ctx sinfo0.sfields sinfo1.sfields
  if compareGenericOut sinfo0.sgenOut sinfo1.sgenOut then
    pure (.matchAuto ctx.paths (.struct sinfo0.sname [], .struct sinfo1.sname [])
      -- the source has the old parameters twice
      (sinfo0.sgenOut, sinfo0.sgenOut) (.struct reordered fieldMatches))
  else pure (.unmatchedType ctx.paths)

/-- `compareUnions`. -/
def compareUnions (ctx : CompContext) (sinfo0 sinfo1 : StructInfo) : CompM ElemMapping := do
  let fieldMatches ← compareUnionFields ctx sinfo0.sfields sinfo1.sfields
  if compareGenericOut sinfo0.sgenOut sinfo1.sgenOut then
    pure (.matchAuto ctx.paths (.union sinfo0.sname [], .union sinfo1.sname []) ([], [])
      (.union fieldMatches))
  else pure (.unmatchedType ctx.paths)

/-- `compareTypedefs`. -/
def compareTypedefs (ctx : CompContext) (tinfo0 tinfo1 : TypedefInfo) : CompM ElemMapping := do
  if ← compareTypesReport ctx tinfo0.ttype tinfo1.ttype then
    pure (.matchAuto ctx.paths (.named tinfo0.tname [], .named tinfo1.tname [])
      (tinfo0.tgenOut, tinfo1.tgenOut) (.typedef (tinfo0.ttype, tinfo1.ttype)))
  else pure (.unmatchedType ctx.paths)

def enumCallbacks : Callbacks (StateM Bool) (String × Int) String where
  keyFun item := item.1
  mapKeyFun item := pure (some item.1)
  compareFun item0 item1 := if item0.2 ≠ item1.2 then set false else pure ()
  addedFun _ := set false
  removedFun _ := set false

/-- `compareEnums`. -/
def compareEnums (ctx : CompContext) (einfo0 einfo1 : EnumerationInfo) : CompM ElemMapping := do
  if einfo0.eintkind ≠ einfo1.eintkind then
    ctx.setMatchFailed
    pure (.unmatchedType ctx.paths)
  else if ((utilCompareLists enumCallbacks einfo0.eitems einfo1.eitems none).run true).2 then
    pure (.matchAuto ctx.paths (.enum einfo0.ename, .enum einfo1.ename) ([], []) .enum)
  else pure (.unmatchedType ctx.paths)

/-- `compareVars`. -/
def compareVars (ctx : CompContext) (vinfo0 vinfo1 : VarInfo) : CompM ElemMapping := do
  if ← compareTypesReport ctx vinfo0.vtype vinfo1.vtype then
    pure (.matchAuto ctx.paths (vinfo0.vtype, vinfo1.vtype) ([], [])
      (.var (vinfo0.vgenIn, vinfo1.vgenIn)))
  else pure (.unmatchedType ctx.paths)

/-- `compareElems`. -/
def compareElems (ctx : CompContext) (e0 e1 : TopLevelElem) : CompM ElemMapping := do
  let ctx' ← ctx.extendPaths e0.path e1.path
  match e0, e1 with
  | .struct sinfo0, .struct sinfo1 => compareStructs ctx' sinfo0 sinfo1
  | .union sinfo0, .union sinfo1 => compareUnions ctx' sinfo0 sinfo1
  | .typedef tinfo0, .typedef tinfo1 => compareTypedefs ctx' tinfo0 tinfo1
  | .enumeration einfo0, .enumeration einfo1 => compareEnums ctx' einfo0 einfo1
  | .var vinfo0, .var vinfo1 => compareVars ctx' vinfo0 vinfo1
  | _, _ => pure (.unmatchedType ctx.paths)

/-! ## The worklist -/

/-- `H.find` in `v0_hash` or `v1_hash`. -/
def findElem (elems : List TopLevelElem) (path : Path) : Option TopLevelElem :=
  findKey (fun e : TopLevelElem => [e.path]) elems path

/-- `handle_match`. -/
def handleMatch (ctx : CompContext) (path0 path1 : Path) : CompM ElemMapping := do
  recordMatch (path0, path1)
  match findElem ctx.oldElems path0, findElem ctx.newElems path1 with
  | some e0, some e1 =>
    match path0, path1 with
    | p0 :: _, p1 :: _ =>
      match ← typeRenamed p0 p1 ctx.allRules with
      | none | some (.xform _ _ none) => compareElems ctx e0 e1
      | some (.xform _ _ (some _)) => pure .external
      | some (.init ..) =>
        throw "An INIT rule should not have matched when mapping two elements"
    | _, _ => throw "hd"
  | _, _ => pure .external

/-- `handle_var`. -/
def handleVar (ctx : CompContext) (name : String) : CompM ElemMapping := do
  match ← findRule ctx.oldPath (.var name :: ctx.newPath) ctx.allRules with
  | none => handleMatch ctx [.var name] [.var name]
  | some (.xform _ _ (some _)) => pure .external
  | some (.xform fromPath toPath none) => handleMatch ctx fromPath toPath
  | some (.init initPath code) =>
    match findElem ctx.newElems initPath with
    | some e => pure (.matchInit initPath e.typ code)
    | none => throw "Not_found"

/-- `handle_type_mapping`; the list is `type_mapping_rules`. -/
def handleTypeMapping (ctx : CompContext) (rules : List ElemMapping) (elems : Paths) :
    CompM (List ElemMapping) := do
  if elems ∈ (← get).typesDone then pure rules
  else do
    modify fun t => { t with typesDone := elems :: t.typesDone }
    let rule ← handleMatch ctx elems.1 elems.2
    pure (rule :: rules)

/-- `untilEmpty handle_type_mapping ctx.types_todo` with as many rounds as there is fuel; `none` if
it has not come to an end by then. -/
def untilEmpty (ctx : CompContext) :
    (fuel : Nat) → List ElemMapping → Tables → Option (Except String (List ElemMapping × Tables))
  | 0, _, _ => none
  | fuel + 1, rules, t =>
    match t.typesTodo with
    | [] => some (.ok (rules, t))
    | first :: rest =>
      match handleTypeMapping ctx rules first { t with typesTodo := rest } with
      | .ok (rules, t) => untilEmpty ctx fuel rules t
      | .error e => some (.error e)

/-- `Hashtbl.find_all`. -/
def findAll (h : List (Paths × Paths)) (k : Paths) : List Paths :=
  (h.filter fun b => b.1 = k).map Prod.snd

/-- `mark_dependencies`; `none` where the fuel does not suffice for the depth of its recursion. -/
def markDependencies : (fuel : Nat) → (deep : Bool) → Paths → Tables → Option Tables
  | 0, _, _, _ => none
  | fuel + 1, true, mapping, t =>
    if mapping ∈ t.requiresFullXform then some t
    else do
      let t := { t with requiresFullXform := mapping :: t.requiresFullXform }
      let t ← (findAll t.hardDeps mapping).foldlM (fun t d => markDependencies fuel true d t) t
      (findAll t.ptrDeps mapping).foldlM (fun t d => markDependencies fuel false d t) t
  | fuel + 1, false, mapping, t =>
    if mapping ∈ t.requiresShallowXform then some t
    else do
      let t := { t with requiresShallowXform := mapping :: t.requiresShallowXform }
      let t ← (findAll t.hardDeps mapping).foldlM (fun t d => markDependencies fuel false d t) t
      (findAll t.ptrDeps mapping).foldlM (fun t d => markDependencies fuel false d t) t

/-- `computeChangeFixpoint`, in any order of its tables. -/
def computeChangeFixpoint (fuel : Nat) (t : Tables) : Option Tables := do
  let cleared := { t with requiresFullXform := [], requiresShallowXform := [] }
  let t' ← t.requiresFullXform.foldlM (fun t m => markDependencies fuel true m t) cleared
  t.requiresShallowXform.foldlM (fun t m => markDependencies fuel false m t) t'

/-- `compareXformElems`, with the results and the tables it leaves. -/
def compareXformElems (fuel : Nat) (ctx : CompContext) (xformReqs : List String) (t : Tables) :
    Option (Except String (List ElemMapping × Tables)) :=
  match xformReqs.mapM (handleVar ctx) t with
  | .error e => some (.error e)
  | .ok (varMappingRules, t) =>
    match untilEmpty ctx fuel [] t with
    | none => none
    | some (.error e) => some (.error e)
    | some (.ok (typeMappingRules, t)) =>
      (computeChangeFixpoint fuel t).map fun t => .ok (varMappingRules ++ typeMappingRules, t)

end CStrider.Comparison
