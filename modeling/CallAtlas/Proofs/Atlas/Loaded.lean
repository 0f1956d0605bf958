import CallAtlas.Proofs.Atlas.Document

/-! # Loaded documents

What a value must be to stand for an entry of an atlas is said member by member, and an atlas is
read from a value exactly if its entries stand for the entries of the atlas, one for each and in
order.

All names in an atlas that has been read are canonical. So whatever text it was read from, from then
on it may be saved and loaded again as often as one likes.
-/
namespace CallAtlas

/-! ### Kinds -/

theorem CallKind.parse_eq_some_iff {t : Bytes} {kind : CallKind} :
    parse? t = some kind ↔ t = kind.name := by
  constructor
  · intro h
    have named := List.find?_some h
    exact (eq_of_beq named).symm
  · rintro rfl
    exact kind.parse_name

theorem EdgeKind.parse_eq_some_iff {t : Bytes} {kind : EdgeKind} :
    parse? t = some kind ↔ t = kind.name := by
  constructor
  · intro h
    unfold parse? at h
    split at h
    · rename_i call
      cases h
      exact call
    · obtain ⟨directive, found, rfl⟩ := Option.map_eq_some_iff.mp h
      have named := List.find?_some found
      exact (eq_of_beq named).symm
  · rintro rfl
    exact kind.parse_name

namespace Document

open Json (Value)

/-! ### Values that stand for entries -/

/-- An integer from 0 to 2³² - 1; a float is none, even if it is whole. -/
def IsArity (v : Value) (arity : UInt32) : Prop :=
  ∃ i : Int64, v = .integer i ∧ i.toInt = arity.toNat

/-- The name that a string member is read as. -/
def HasName (v : Value) (key : String) (name : ModuleName) : Prop :=
  ∃ s, v.get? (text key) = some (.string s) ∧ name = .parse s

/-- An array of exactly module, name and arity. -/
def IsFunctionName (v : Value) (f : FunctionName) : Prop :=
  ∃ module arity, v = .array [.string module, .string f.name, arity] ∧
    f.module = .parse module ∧ IsArity arity f.arity

/-- The function that a member names. -/
def HasFunctionName (v : Value) (key : String) (f : FunctionName) : Prop :=
  ∃ w, v.get? (text key) = some w ∧ IsFunctionName w f

structure IsSignature (v : Value) (s : Signature) : Prop where
  name : v.get? (text "name") = some (.string s.name)
  arity : ∃ w, v.get? (text "arity") = some w ∧ IsArity w s.arity

structure IsModuleNode (v : Value) (m : ModuleNode) : Prop where
  name : HasName v "name" m.name
  file : v.get? (text "file") = some (.string m.file)
  functions : (v.get? (text "functions") = none ∧ m.functions = []) ∨
    ∃ items, v.get? (text "functions") = some (.array items) ∧
      List.Forall₂ IsSignature items m.functions

structure IsModuleEdge (v : Value) (e : ModuleEdge) : Prop where
  source : HasName v "from" e.source
  target : HasName v "to" e.target
  kind : v.get? (text "kind") = some (.string e.kind.name)

def IsFunctionNode (v : Value) (f : FunctionName) : Prop := HasFunctionName v "mfa" f

structure IsCall (v : Value) (c : Call) : Prop where
  kind : v.get? (text "kind") = some (.string c.kind.name)
  caller : HasFunctionName v "from" c.caller
  callee : HasFunctionName v "to" c.callee

structure IsModuleCall (v : Value) (c : ModuleCall) : Prop where
  caller : HasName v "from" c.caller
  callee : HasName v "to" c.callee

/-- The entries of an array: none if it is absent. -/
inductive Lists (root : Value) (s : Section) : List Value → Prop
  | absent (h : root.get? s.name = none) : Lists root s []
  | array {items : List Value} (h : root.get? s.name = some (.array items))
      (objects : ∀ v ∈ items, ∃ members, v = .object members) : Lists root s items

/-- The entries of an array stand for the entries of a list, one for each and in order. -/
def Holds {α : Type} (root : Value) (s : Section) (stands : Value → α → Prop) (xs : List α) :
    Prop :=
  ∃ items, Lists root s items ∧ List.Forall₂ stands items xs

/-- What an atlas is read from. -/
structure Describes (root : Value) (a : Atlas) : Prop where
  object : ∃ members, root = .object members
  modules : Holds root .modules IsModuleNode a.modules
  moduleEdges : Holds root .moduleEdges IsModuleEdge a.moduleEdges
  functions : Holds root .functions IsFunctionNode a.functions
  calls : Holds root .calls IsCall a.calls
  moduleCalls : Holds root .moduleCalls IsModuleCall a.moduleCalls

/-! ### Reading entries -/

section Entries

variable {p : Place} {v : Value}

theorem stringMember_eq_ok_iff {key : String} {s : Bytes} :
    stringMember p key v = .ok s ↔ v.get? (text key) = some (.string s) := by
  refine ⟨?_, stringMember_eq⟩
  intro h
  unfold stringMember at h
  split at h
  · rename_i found
    obtain rfl := Except.ok.inj h
    obtain ⟨w, hw, string⟩ := Option.bind_eq_some_iff.mp found
    cases w with
    | string s =>
      obtain rfl := Option.some.inj string
      exact hw
    | _ => cases string
  · cases h

theorem toArity_eq_ok_iff {arity : UInt32} : toArity p v = .ok arity ↔ IsArity v arity := by
  constructor
  · intro h
    unfold toArity at h
    split at h
    · rename_i i found
      split at h
      · rename_i range
        obtain rfl := Except.ok.inj h
        have integer : v = .integer i := by
          cases v with
          | integer j => exact congrArg _ (Option.some.inj found)
          | _ => cases found
        have small : i.toInt.toNat < UInt32.size := by omega
        refine ⟨i, integer, ?_⟩
        rw [UInt32.toNat_ofNat_of_lt' small, Int.toNat_of_nonneg range.1]
      · cases h
    · cases h
  · rintro ⟨i, rfl, hi⟩
    have small := arity.toNat_lt
    have range : 0 ≤ i.toInt ∧ i.toInt < UInt32.size := by
      rw [hi]
      exact ⟨Int.natCast_nonneg _, Int.ofNat_lt.mpr small⟩
    change (if _ then _ else _) = _
    rw [if_pos range, hi, Int.toNat_natCast, UInt32.ofNat_toNat]

theorem toFunctionName_eq_ok_iff {key : String} {f : FunctionName} :
    toFunctionName p (v.get? (text key)) = .ok f ↔ HasFunctionName v key f := by
  constructor
  · intro h
    unfold toFunctionName at h
    split at h
    · rename_i module name arity found
      obtain ⟨n, hn, h⟩ := bind_eq_ok h
      obtain rfl := Except.ok.inj h
      exact ⟨_, found, module, arity, rfl, rfl, toArity_eq_ok_iff.mp hn⟩
    · cases h
  · rintro ⟨_, found, module, arity, rfl, hm, ha⟩
    rw [found]
    simp only [toFunctionName, toArity_eq_ok_iff.mpr ha, ← hm]
    rfl

theorem toSignature_eq_ok_iff {s : Signature} : toSignature p v = .ok s ↔ IsSignature v s := by
  constructor
  · intro h
    unfold toSignature at h
    split at h
    · cases h
    · rename_i name found
      split at h
      · cases h
      · rename_i arity present
        obtain ⟨n, hn, h⟩ := bind_eq_ok h
        obtain rfl := Except.ok.inj h
        have string : stringMember p "name" v = .ok name := by rw [stringMember, found]
        exact ⟨stringMember_eq_ok_iff.mp string, arity, present, toArity_eq_ok_iff.mp hn⟩
  · rintro ⟨name, arity, present, ha⟩
    unfold toSignature
    rw [name, present]
    simp only [Option.bind_some, Value.string?, toArity_eq_ok_iff.mpr ha]
    rfl

theorem toModuleNode_eq_ok_iff {m : ModuleNode} :
    toModuleNode p v = .ok m ↔ IsModuleNode v m := by
  constructor
  · intro h
    obtain ⟨name, hname, h⟩ := bind_eq_ok h
    obtain ⟨file, hfile, h⟩ := bind_eq_ok h
    rw [stringMember_eq_ok_iff] at hname hfile
    split at h
    · rename_i absent
      obtain rfl := Except.ok.inj h
      exact ⟨⟨name, hname, rfl⟩, hfile, .inl ⟨absent, rfl⟩⟩
    · rename_i items present
      obtain ⟨functions, hf, h⟩ := bind_eq_ok h
      obtain rfl := Except.ok.inj h
      have signatures : List.Forall₂ IsSignature items functions :=
        (mapM_eq_ok_iff.mp hf).imp fun _ _ => toSignature_eq_ok_iff.mp
      exact ⟨⟨name, hname, rfl⟩, hfile, .inr ⟨items, present, signatures⟩⟩
    · cases h
  · rintro ⟨⟨name, hname, parsed⟩, hfile, functions⟩
    unfold toModuleNode
    rw [stringMember_eq hname, stringMember_eq hfile]
    rcases functions with ⟨absent, none⟩ | ⟨items, present, signatures⟩
    · rw [absent]
      simp only [bind, Except.bind, ← parsed, ← none]
      rfl
    · have read : items.mapM (toSignature p) = .ok m.functions :=
        mapM_eq_ok_iff.mpr (signatures.imp fun _ _ => toSignature_eq_ok_iff.mpr)
      rw [present]
      simp only [bind, Except.bind, read, ← parsed]
      rfl

theorem toModuleEdge_eq_ok_iff {e : ModuleEdge} :
    toModuleEdge p v = .ok e ↔ IsModuleEdge v e := by
  constructor
  · intro h
    obtain ⟨source, hsource, h⟩ := bind_eq_ok h
    obtain ⟨target, htarget, h⟩ := bind_eq_ok h
    obtain ⟨kind, hkind, h⟩ := bind_eq_ok h
    rw [stringMember_eq_ok_iff] at hsource htarget hkind
    split at h
    · rename_i known
      obtain rfl := Except.ok.inj h
      rw [EdgeKind.parse_eq_some_iff.mp known] at hkind
      exact ⟨⟨source, hsource, rfl⟩, ⟨target, htarget, rfl⟩, hkind⟩
    · cases h
  · rintro ⟨⟨source, hsource, parsed⟩, ⟨target, htarget, parsed'⟩, hkind⟩
    unfold toModuleEdge
    rw [stringMember_eq hsource, stringMember_eq htarget, stringMember_eq hkind]
    simp only [bind, Except.bind, EdgeKind.parse_name, ← parsed, ← parsed']
    rfl

theorem toFunctionNode_eq_ok_iff {f : FunctionName} :
    toFunctionNode p v = .ok f ↔ IsFunctionNode v f :=
  toFunctionName_eq_ok_iff

theorem toCall_eq_ok_iff {c : Call} : toCall p v = .ok c ↔ IsCall v c := by
  constructor
  · intro h
    obtain ⟨kind, hkind, h⟩ := bind_eq_ok h
    rw [stringMember_eq_ok_iff] at hkind
    split at h
    · rename_i known
      obtain ⟨caller, hcaller, h⟩ := bind_eq_ok h
      obtain ⟨callee, hcallee, h⟩ := bind_eq_ok h
      obtain rfl := Except.ok.inj h
      rw [CallKind.parse_eq_some_iff.mp known] at hkind
      exact ⟨hkind, toFunctionName_eq_ok_iff.mp hcaller, toFunctionName_eq_ok_iff.mp hcallee⟩
    · cases h
  · rintro ⟨hkind, hcaller, hcallee⟩
    unfold toCall
    rw [stringMember_eq hkind]
    simp only [bind, Except.bind, CallKind.parse_name, toFunctionName_eq_ok_iff.mpr hcaller,
      toFunctionName_eq_ok_iff.mpr hcallee]
    rfl

theorem toModuleCall_eq_ok_iff {c : ModuleCall} :
    toModuleCall p v = .ok c ↔ IsModuleCall v c := by
  constructor
  · intro h
    obtain ⟨caller, hcaller, h⟩ := bind_eq_ok h
    obtain ⟨callee, hcallee, h⟩ := bind_eq_ok h
    obtain rfl := Except.ok.inj h
    rw [stringMember_eq_ok_iff] at hcaller hcallee
    exact ⟨⟨caller, hcaller, rfl⟩, ⟨callee, hcallee, rfl⟩⟩
  · rintro ⟨⟨caller, hcaller, parsed⟩, ⟨callee, hcallee, parsed'⟩⟩
    unfold toModuleCall
    rw [stringMember_eq hcaller, stringMember_eq hcallee]
    simp only [bind, Except.bind, ← parsed, ← parsed']
    rfl

end Entries

/-! ### Reading documents -/

theorem object_isSome_iff {v : Value} : v.object?.isSome ↔ ∃ members, v = .object members := by
  cases v <;> simp [Value.object?]

theorem entries_eq_ok_iff {root : Value} {s : Section} {es : List (Place × Value)} :
    entries root s = .ok es ↔ ∃ items, Lists root s items ∧ es = placed s items 0 := by
  constructor
  · intro h
    unfold entries at h
    split at h
    · rename_i absent
      exact ⟨[], .absent absent, (Except.ok.inj h).symm⟩
    · rename_i items present
      dsimp only at h
      split at h
      · cases h
      · rename_i none
        refine ⟨items, .array present ?_, (Except.ok.inj h).symm⟩
        intro v hv
        obtain ⟨index, hindex⟩ := List.mem_iff_getElem?.mp hv
        have object := List.find?_eq_none.mp none _
          (List.mem_map_of_mem (List.mk_mem_zipIdx_iff_getElem?.mpr hindex))
        exact object_isSome_iff.mp (by simpa [Option.isSome_iff_ne_none] using object)
    · cases h
  · rintro ⟨items, listed, rfl⟩
    cases listed with
    | absent absent =>
      rw [entries, absent]
      rfl
    | array present objects =>
      exact entries_eq present fun v hv => object_isSome_iff.mpr (objects v hv)

theorem mapM_placed_eq_ok_iff {α : Type} {s : Section} {read : Place → Value → Except Error α}
    {stands : Value → α → Prop} (h : ∀ p v x, read p v = .ok x ↔ stands v x)
    {items : List Value} {xs : List α} (start : Nat) :
    (placed s items start).mapM (fun (p, v) => read p v) = .ok xs ↔
      List.Forall₂ stands items xs := by
  rw [mapM_eq_ok_iff]
  induction items generalizing xs start with
  | nil => rw [placed, List.zipIdx_nil, List.map_nil, List.forall₂_nil_left_iff,
      List.forall₂_nil_left_iff]
  | cons v items ih =>
    have split : placed s (v :: items) start = (⟨s, start⟩, v) :: placed s items (start + 1) := rfl
    rw [split, List.forall₂_cons_left_iff, List.forall₂_cons_left_iff]
    exact exists₂_congr fun x others =>
      and_congr (h _ v x) (and_congr_left fun _ => ih (start + 1))

theorem readSection_eq_ok_iff {α : Type} {root : Value} {s : Section} {xs : List α}
    {read : Place → Value → Except Error α} {stands : Value → α → Prop}
    (h : ∀ {p v x}, read p v = .ok x ↔ stands v x) :
    readSection root s read = .ok xs ↔ Holds root s stands xs := by
  have all {items} : (placed s items 0).mapM (fun (p, v) => read p v) = .ok xs ↔
      List.Forall₂ stands items xs := mapM_placed_eq_ok_iff @h 0
  unfold readSection
  rw [bind_eq_ok_iff]
  constructor
  · rintro ⟨es, hes, hxs⟩
    obtain ⟨items, listed, rfl⟩ := entries_eq_ok_iff.mp hes
    exact ⟨items, listed, all.mp hxs⟩
  · rintro ⟨items, listed, hxs⟩
    exact ⟨_, entries_eq_ok_iff.mpr ⟨items, listed, rfl⟩, all.mpr hxs⟩

/-- An atlas is read from what describes it, and from nothing else. -/
theorem toAtlas_eq_ok_iff {root : Value} {a : Atlas} :
    toAtlas root = .ok a ↔ Describes root a := by
  have modules {xs : List ModuleNode} :
      readSection root .modules toModuleNode = .ok xs ↔ Holds root .modules IsModuleNode xs :=
    readSection_eq_ok_iff toModuleNode_eq_ok_iff
  have edges {xs : List ModuleEdge} :
      readSection root .moduleEdges toModuleEdge = .ok xs ↔
        Holds root .moduleEdges IsModuleEdge xs :=
    readSection_eq_ok_iff toModuleEdge_eq_ok_iff
  have functions {xs : List FunctionName} :
      readSection root .functions toFunctionNode = .ok xs ↔
        Holds root .functions IsFunctionNode xs :=
    readSection_eq_ok_iff toFunctionNode_eq_ok_iff
  have calls {xs : List Call} :
      readSection root .calls toCall = .ok xs ↔ Holds root .calls IsCall xs :=
    readSection_eq_ok_iff toCall_eq_ok_iff
  have moduleCalls {xs : List ModuleCall} :
      readSection root .moduleCalls toModuleCall = .ok xs ↔
        Holds root .moduleCalls IsModuleCall xs :=
    readSection_eq_ok_iff toModuleCall_eq_ok_iff
  constructor
  · intro h
    unfold toAtlas at h
    split at h
    · cases h
    · rename_i object
      obtain ⟨ms, hms, h⟩ := bind_eq_ok h
      obtain ⟨es, hes, h⟩ := bind_eq_ok h
      obtain ⟨fs, hfs, h⟩ := bind_eq_ok h
      obtain ⟨cs, hcs, h⟩ := bind_eq_ok h
      obtain ⟨mcs, hmcs, h⟩ := bind_eq_ok h
      obtain rfl := Except.ok.inj h
      have object := object_isSome_iff.mp (by simpa [Option.isSome_iff_ne_none] using object)
      exact ⟨object, modules.mp hms, edges.mp hes, functions.mp hfs, calls.mp hcs,
        moduleCalls.mp hmcs⟩
  · rintro ⟨object, hms, hes, hfs, hcs, hmcs⟩
    have object := object_isSome_iff.mpr object
    unfold toAtlas
    rw [if_neg (by simpa [Option.isSome_iff_ne_none] using object), modules.mpr hms,
      edges.mpr hes, functions.mpr hfs, calls.mpr hcs, moduleCalls.mpr hmcs]
    rfl

theorem parse_eq_ok_iff_describes {t : Bytes} {a : Atlas} :
    parse t = .ok a ↔ ∃ root, Json.parse t = .ok root ∧ Describes root a := by
  unfold parse
  cases Json.parse t with
  | error e => simp
  | ok root => simp [toAtlas_eq_ok_iff]

/-! ### Saving and loading again -/

theorem HasName.canonical {v : Value} {key : String} {n : ModuleName} (h : HasName v key n) :
    n.Canonical := by
  obtain ⟨s, -, rfl⟩ := h
  exact ModuleName.canonical_parse s

theorem HasFunctionName.canonical {v : Value} {key : String} {f : FunctionName}
    (h : HasFunctionName v key f) : f.module.Canonical := by
  obtain ⟨_, -, module, _, -, hm, -⟩ := h
  rw [hm]
  exact ModuleName.canonical_parse module

theorem Holds.forall_mem {α : Type} {root : Value} {s : Section} {stands : Value → α → Prop}
    {xs : List α} {P : α → Prop} (h : Holds root s stands xs)
    (each : ∀ v x, stands v x → P x) : ∀ x ∈ xs, P x := by
  obtain ⟨items, -, all⟩ := h
  clear * - all each
  induction all with
  | nil => simp
  | cons first _ ih => exact List.forall_mem_cons.mpr ⟨each _ _ first, ih⟩

theorem Describes.canonical {root : Value} {a : Atlas} (h : Describes root a) :
    ∀ n ∈ a.names, n.Canonical := by
  simp only [Atlas.names, List.forall_mem_append, List.forall_mem_map, List.forall_mem_flatMap,
    List.forall_mem_cons, List.not_mem_nil, false_implies, implies_true, and_true]
  refine ⟨?_, ?_, ?_, ?_, ?_⟩
  · exact h.modules.forall_mem fun _ _ hm => hm.name.canonical
  · exact h.moduleEdges.forall_mem fun _ _ he => ⟨he.source.canonical, he.target.canonical⟩
  · exact h.functions.forall_mem fun _ _ hf => HasFunctionName.canonical hf
  · exact h.calls.forall_mem fun _ _ hc => ⟨hc.caller.canonical, hc.callee.canonical⟩
  · exact h.moduleCalls.forall_mem fun _ _ hc => ⟨hc.caller.canonical, hc.callee.canonical⟩

/-- The layouts in which a document can be written. -/
inductive Layout where
  | compact
  | pretty (indent : Nat)

def Layout.write (a : Atlas) : Layout → Bytes
  | .compact => (ofAtlas .all a).compact
  | .pretty indent => (ofAtlas .all a).pretty indent

/-- Saves an atlas and loads what was saved. -/
def reload (a : Atlas) (layout : Layout) : Except Error Atlas := parse (layout.write a)

theorem reload_of_parse {t : Bytes} {a : Atlas} (h : parse t = .ok a) (layout : Layout) :
    reload a layout = .ok a := by
  obtain ⟨root, -, describes⟩ := parse_eq_ok_iff_describes.mp h
  cases layout with
  | compact => exact parse_compact_ofAtlas .all describes.canonical
  | pretty indent => exact parse_pretty_ofAtlas .all indent describes.canonical

/-- Whatever text an atlas was loaded from, saving it in any layout and loading it again gives the
same atlas, which is written as the same bytes; and so does any number of further rounds. -/
theorem loaded_is_normal {t : Bytes} {a : Atlas} (h : parse t = .ok a) :
    (∀ layout, reload a layout = .ok a ∧
      ∀ b, reload a layout = .ok b → ∀ other : Layout, other.write b = other.write a) ∧
    ∀ layouts : List Layout, layouts.foldlM reload a = .ok a := by
  have again := reload_of_parse h
  refine ⟨fun layout => ⟨again layout, ?_⟩, ?_⟩
  · intro b hb other
    obtain rfl := Except.ok.inj ((again layout).symm.trans hb)
    rfl
  · intro layouts
    induction layouts with
    | nil => rfl
    | cons layout layouts ih =>
      rw [List.foldlM_cons, again layout]
      exact ih

/-- A document with blanks, an array that is given twice, members that are not known, an escape and
a name with an empty segment. -/
def foreignDocument : Bytes :=
  text ("\x7b\"x\": [null], \"modules\": 0,\n \"modules\": [ \x7b\"name\": \"A..B\", " ++
    "\"file\": \"\\u0061\", \"y\": 1.5\x7d ]\x7d")

/-- What the document says: one module, whose name is lost. -/
def foreignAtlas : Atlas := { modules := [⟨.unknown, text "a", []⟩] }

theorem foreignDocument_normal :
    parse foreignDocument = .ok foreignAtlas ∧
      [Layout.compact, .pretty 0, .pretty 3].foldlM reload foreignAtlas = .ok foreignAtlas := by
  have found : (parse foreignDocument).toOption.any (· = foreignAtlas) := by decide +kernel
  obtain ⟨a, read, same⟩ := exists_ok_of_any found
  obtain rfl := of_decide_eq_true same
  exact ⟨read, (loaded_is_normal read).2 _⟩

end Document
end CallAtlas
