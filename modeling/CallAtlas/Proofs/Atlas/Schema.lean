import CallAtlas.Proofs.Atlas.Loaded

/-! # Which documents are read

The form of a document is the arrays it may have, the members that the entries of each array must
have, and the form of each member. A text is read exactly if it is JSON for a value of this form.
Members that the form does not name do not matter.
-/
namespace CallAtlas.Document

open Json (Value)

/-! ### The form of a document -/

/-- An object with a member that satisfies `P`. -/
def Member (key : Bytes) (P : Value → Prop) (v : Value) : Prop := ∃ w, v.get? key = some w ∧ P w

/-- A value whose member satisfies `P` if it has one. -/
def OptionalMember (key : Bytes) (P : Value → Prop) (v : Value) : Prop :=
  ∀ w, v.get? key = some w → P w

def IsObject (v : Value) : Prop := ∃ members, v = .object members

def IsString (v : Value) : Prop := ∃ s, v = .string s

def IsArrayOf (P : Value → Prop) (v : Value) : Prop := ∃ items, v = .array items ∧ ∀ w ∈ items, P w

/-- The form of an arity: an integer that has 32 bits, and no float. -/
def ArityForm (v : Value) : Prop :=
  ∃ i : Int64, v = .integer i ∧ 0 ≤ i.toInt ∧ i.toInt < UInt32.size

def FunctionNameForm (v : Value) : Prop :=
  ∃ module name arity, v = .array [module, name, arity] ∧ IsString module ∧ IsString name ∧
    ArityForm arity

def SignatureForm (v : Value) : Prop :=
  IsObject v ∧ Member (text "name") IsString v ∧ Member (text "arity") ArityForm v

/-- The members that the entries of each array must have. -/
def EntryForm (v : Value) : Section → Prop
  | .modules => Member (text "name") IsString v ∧ Member (text "file") IsString v ∧
      OptionalMember (text "functions") (IsArrayOf SignatureForm) v
  | .moduleEdges => Member (text "from") IsString v ∧ Member (text "to") IsString v ∧
      Member (text "kind") (fun w => ∃ kind : EdgeKind, w = .string kind.name) v
  | .functions => Member (text "mfa") FunctionNameForm v
  | .calls => Member (text "kind") (fun w => ∃ kind : CallKind, w = .string kind.name) v ∧
      Member (text "from") FunctionNameForm v ∧ Member (text "to") FunctionNameForm v
  | .moduleCalls => Member (text "from") IsString v ∧ Member (text "to") IsString v

def DocumentForm (root : Value) : Prop :=
  IsObject root ∧
    ∀ s : Section, OptionalMember s.name (IsArrayOf fun v => IsObject v ∧ EntryForm v s) root

section Forms

variable {v : Value} {key : String}

theorem exists_isArity_iff : (∃ n, IsArity v n) ↔ ArityForm v := by
  constructor
  · rintro ⟨n, i, rfl, hi⟩
    have small := n.toNat_lt_size
    exact ⟨i, rfl, by omega, by omega⟩
  · rintro ⟨i, rfl, nonneg, small⟩
    have range : i.toInt.toNat < UInt32.size := by omega
    refine ⟨UInt32.ofNat i.toInt.toNat, i, rfl, ?_⟩
    rw [UInt32.toNat_ofNat_of_lt' range, Int.toNat_of_nonneg nonneg]

theorem exists_hasName_iff : (∃ n, HasName v key n) ↔ Member (text key) IsString v := by
  constructor
  · rintro ⟨n, s, hs, -⟩
    exact ⟨_, hs, s, rfl⟩
  · rintro ⟨_, hw, s, rfl⟩
    exact ⟨.parse s, s, hw, rfl⟩

theorem exists_string_iff :
    (∃ s, v.get? (text key) = some (.string s)) ↔ Member (text key) IsString v := by
  constructor
  · rintro ⟨s, hs⟩
    exact ⟨_, hs, s, rfl⟩
  · rintro ⟨_, hw, s, rfl⟩
    exact ⟨s, hw⟩

theorem exists_hasFunctionName_iff :
    (∃ f, HasFunctionName v key f) ↔ Member (text key) FunctionNameForm v := by
  constructor
  · rintro ⟨f, w, hw, module, arity, rfl, -, ha⟩
    exact ⟨_, hw, _, _, arity, rfl, ⟨module, rfl⟩, ⟨f.name, rfl⟩, exists_isArity_iff.mp ⟨_, ha⟩⟩
  · rintro ⟨w, hw, _, _, arity, rfl, ⟨module, rfl⟩, ⟨name, rfl⟩, ha⟩
    obtain ⟨n, hn⟩ := exists_isArity_iff.mpr ha
    exact ⟨⟨.parse module, name, n⟩, _, hw, module, arity, rfl, rfl, hn⟩

theorem exists_isSignature_iff : (∃ s, IsSignature v s) ↔ SignatureForm v := by
  constructor
  · rintro ⟨s, name, w, hw, ha⟩
    have object : IsObject v := by
      cases v with
      | object members => exact ⟨members, rfl⟩
      | _ => cases name
    exact ⟨object, ⟨_, name, s.name, rfl⟩, w, hw, exists_isArity_iff.mp ⟨_, ha⟩⟩
  · rintro ⟨-, name, w, hw, ha⟩
    obtain ⟨name, hname⟩ := exists_string_iff.mpr name
    obtain ⟨n, hn⟩ := exists_isArity_iff.mpr ha
    exact ⟨⟨name, n⟩, hname, w, hw, hn⟩

/-- A list stands for another if each of its entries stands for something. -/
theorem exists_forall₂_iff {α β : Type} {R : α → β → Prop} {xs : List α} :
    (∃ ys, List.Forall₂ R xs ys) ↔ ∀ x ∈ xs, ∃ y, R x y := by
  induction xs with
  | nil => simp
  | cons x xs ih =>
    rw [List.forall_mem_cons, ← ih]
    constructor
    · rintro ⟨_, h⟩
      obtain ⟨y, ys, hy, hys, -⟩ := List.forall₂_cons_left_iff.mp h
      exact ⟨⟨y, hy⟩, ys, hys⟩
    · rintro ⟨⟨y, hy⟩, ys, hys⟩
      exact ⟨y :: ys, .cons hy hys⟩

theorem exists_isModuleNode_iff : (∃ m, IsModuleNode v m) ↔ EntryForm v .modules := by
  constructor
  · rintro ⟨m, name, file, functions⟩
    refine ⟨exists_hasName_iff.mp ⟨_, name⟩, exists_string_iff.mp ⟨_, file⟩, ?_⟩
    intro w hw
    rcases functions with ⟨absent, -⟩ | ⟨items, present, signatures⟩
    · rw [absent] at hw
      cases hw
    · obtain rfl := Option.some.inj (present.symm.trans hw)
      refine ⟨items, rfl, fun u hu => exists_isSignature_iff.mp ?_⟩
      exact exists_forall₂_iff.mp ⟨_, signatures⟩ u hu
  · rintro ⟨name, file, functions⟩
    obtain ⟨name, hname⟩ := exists_hasName_iff.mpr name
    obtain ⟨file, hfile⟩ := exists_string_iff.mpr file
    cases hf : v.get? (text "functions") with
    | none => exact ⟨⟨name, file, []⟩, hname, hfile, .inl ⟨hf, rfl⟩⟩
    | some w =>
      obtain ⟨items, rfl, forms⟩ := functions w hf
      obtain ⟨signatures, hs⟩ :=
        exists_forall₂_iff.mpr fun u hu => exists_isSignature_iff.mpr (forms u hu)
      exact ⟨⟨name, file, signatures⟩, hname, hfile, .inr ⟨items, hf, hs⟩⟩

theorem exists_isModuleEdge_iff : (∃ e, IsModuleEdge v e) ↔ EntryForm v .moduleEdges := by
  constructor
  · rintro ⟨e, source, target, kind⟩
    exact ⟨exists_hasName_iff.mp ⟨_, source⟩, exists_hasName_iff.mp ⟨_, target⟩, _, kind, e.kind,
      rfl⟩
  · rintro ⟨source, target, _, hkind, kind, rfl⟩
    obtain ⟨source, hsource⟩ := exists_hasName_iff.mpr source
    obtain ⟨target, htarget⟩ := exists_hasName_iff.mpr target
    exact ⟨⟨source, target, kind⟩, hsource, htarget, hkind⟩

theorem exists_isCall_iff : (∃ c, IsCall v c) ↔ EntryForm v .calls := by
  constructor
  · rintro ⟨c, kind, caller, callee⟩
    exact ⟨⟨_, kind, c.kind, rfl⟩, exists_hasFunctionName_iff.mp ⟨_, caller⟩,
      exists_hasFunctionName_iff.mp ⟨_, callee⟩⟩
  · rintro ⟨⟨_, hkind, kind, rfl⟩, caller, callee⟩
    obtain ⟨caller, hcaller⟩ := exists_hasFunctionName_iff.mpr caller
    obtain ⟨callee, hcallee⟩ := exists_hasFunctionName_iff.mpr callee
    exact ⟨⟨kind, caller, callee⟩, hkind, hcaller, hcallee⟩

theorem exists_isModuleCall_iff : (∃ c, IsModuleCall v c) ↔ EntryForm v .moduleCalls := by
  constructor
  · rintro ⟨c, caller, callee⟩
    exact ⟨exists_hasName_iff.mp ⟨_, caller⟩, exists_hasName_iff.mp ⟨_, callee⟩⟩
  · rintro ⟨caller, callee⟩
    obtain ⟨caller, hcaller⟩ := exists_hasName_iff.mpr caller
    obtain ⟨callee, hcallee⟩ := exists_hasName_iff.mpr callee
    exact ⟨⟨caller, callee⟩, hcaller, hcallee⟩

theorem exists_holds_iff {α : Type} {root : Value} {s : Section} {stands : Value → α → Prop}
    (h : ∀ {v}, (∃ x, stands v x) ↔ EntryForm v s) :
    (∃ xs, Holds root s stands xs) ↔
      OptionalMember s.name (IsArrayOf fun v => IsObject v ∧ EntryForm v s) root := by
  constructor
  · rintro ⟨xs, items, listed, all⟩ w hw
    cases listed with
    | absent absent =>
      rw [absent] at hw
      cases hw
    | array present objects =>
      obtain rfl := Option.some.inj (present.symm.trans hw)
      refine ⟨items, rfl, fun v hv => ⟨objects v hv, h.mp ?_⟩⟩
      exact exists_forall₂_iff.mp ⟨xs, all⟩ v hv
  · intro form
    cases found : root.get? s.name with
    | none => exact ⟨[], [], .absent found, .nil⟩
    | some w =>
      obtain ⟨items, rfl, forms⟩ := form w found
      obtain ⟨xs, hxs⟩ := exists_forall₂_iff.mpr fun v hv => h.mpr (forms v hv).2
      exact ⟨xs, items, .array found fun v hv => (forms v hv).1, hxs⟩

/-- A value has the form of a document exactly if it describes an atlas. -/
theorem exists_describes_iff {root : Value} : (∃ a, Describes root a) ↔ DocumentForm root := by
  constructor
  · rintro ⟨a, object, modules, edges, functions, calls, moduleCalls⟩
    refine ⟨object, fun s => ?_⟩
    cases s with
    | modules => exact (exists_holds_iff exists_isModuleNode_iff).mp ⟨_, modules⟩
    | moduleEdges => exact (exists_holds_iff exists_isModuleEdge_iff).mp ⟨_, edges⟩
    | functions => exact (exists_holds_iff exists_hasFunctionName_iff).mp ⟨_, functions⟩
    | calls => exact (exists_holds_iff exists_isCall_iff).mp ⟨_, calls⟩
    | moduleCalls => exact (exists_holds_iff exists_isModuleCall_iff).mp ⟨_, moduleCalls⟩
  · rintro ⟨object, sections⟩
    obtain ⟨ms, modules⟩ :=
      (exists_holds_iff exists_isModuleNode_iff).mpr (sections .modules)
    obtain ⟨es, edges⟩ :=
      (exists_holds_iff exists_isModuleEdge_iff).mpr (sections .moduleEdges)
    obtain ⟨fs, functions⟩ :=
      (exists_holds_iff exists_hasFunctionName_iff).mpr (sections .functions)
    obtain ⟨cs, calls⟩ := (exists_holds_iff exists_isCall_iff).mpr (sections .calls)
    obtain ⟨mcs, moduleCalls⟩ :=
      (exists_holds_iff exists_isModuleCall_iff).mpr (sections .moduleCalls)
    exact ⟨⟨ms, es, fs, cs, mcs⟩, object, modules, edges, functions, calls, moduleCalls⟩

end Forms

/-! ### Members that do not matter -/

/-- The value with only some of its members, each changed as given. -/
def keep (kept : List (Bytes × (Value → Value))) : Value → Value
  | .object members =>
    .object (members.filterMap fun (key, v) => (kept.lookup key).map fun f => (key, f v))
  | v => v

/-- The array with each of its items changed. -/
def mapItems (f : Value → Value) : Value → Value
  | .array items => .array (items.map f)
  | v => v

def listedSignature : Value → Value := keep [(text "name", id), (text "arity", id)]

def listedEntry : Section → Value → Value
  | .modules =>
    keep [(text "name", id), (text "file", id), (text "functions", mapItems listedSignature)]
  | .moduleEdges => keep [(text "from", id), (text "to", id), (text "kind", id)]
  | .functions => keep [(text "mfa", id)]
  | .calls => keep [(text "kind", id), (text "from", id), (text "to", id)]
  | .moduleCalls => keep [(text "from", id), (text "to", id)]

/-- The document with only the members that its form names. -/
def listed : Value → Value :=
  keep (Part.all.sections.map fun s => (s.name, mapItems (listedEntry s)))

section Listed

variable {p : Place} (v : Value)

theorem get_keep (kept : List (Bytes × (Value → Value))) (key : Bytes) :
    (keep kept v).get? key = (kept.lookup key).bind fun f => (v.get? key).map f := by
  cases v with
  | object members =>
    change Table.find? key (members.filterMap _) = _ 
    simp only [Value.get?]
    induction members with
    | nil => cases kept.lookup key <;> rfl
    | cons member members ih =>
      obtain ⟨k, w⟩ := member
      by_cases same : k = key
      · subst same
        cases found : kept.lookup k with
        | none => simpa [found] using ih
        | some f => simp [found, Table.find?]
      · cases found : kept.lookup k with
        | none => simpa [found, Table.find?, same] using ih
        | some f => simpa [found, Table.find?, same] using ih
  | _ => cases kept.lookup key <;> rfl

theorem object_keep (kept : List (Bytes × (Value → Value))) :
    (keep kept v).object?.isNone = v.object?.isNone := by
  cases v <;> rfl

theorem get_keep_of_id {kept : List (Bytes × (Value → Value))} {key : Bytes}
    (h : kept.lookup key = some id) : (keep kept v).get? key = v.get? key := by
  rw [get_keep, h]
  simp

theorem stringMember_keep {kept : List (Bytes × (Value → Value))} {key : String}
    (h : kept.lookup (text key) = some id) :
    stringMember p key (keep kept v) = stringMember p key v := by
  rw [stringMember, stringMember, get_keep_of_id v h]

theorem toSignature_listed : toSignature p (listedSignature v) = toSignature p v := by
  have name : (listedSignature v).get? (text "name") = v.get? (text "name") :=
    get_keep_of_id v rfl
  have arity : (listedSignature v).get? (text "arity") = v.get? (text "arity") :=
    get_keep_of_id v rfl
  rw [toSignature, toSignature, name, arity]

theorem toModuleNode_listed : toModuleNode p (listedEntry .modules v) = toModuleNode p v := by
  have name : stringMember p "name" (listedEntry .modules v) = stringMember p "name" v :=
    stringMember_keep v rfl
  have file : stringMember p "file" (listedEntry .modules v) = stringMember p "file" v :=
    stringMember_keep v rfl
  have functions : (listedEntry .modules v).get? (text "functions") =
      (v.get? (text "functions")).map (mapItems listedSignature) := get_keep v _ _
  rw [toModuleNode, toModuleNode, name, file, functions]
  cases v.get? (text "functions") with
  | none => rfl
  | some w =>
    cases w with
    | array items =>
      have signatures : (items.map listedSignature).mapM (toSignature p) =
          items.mapM (toSignature p) := by
        rw [List.mapM_map]
        exact congrArg (fun read => items.mapM read) (funext toSignature_listed)
      simp only [Option.map_some, mapItems, signatures]
    | _ => rfl

theorem toModuleEdge_listed : toModuleEdge p (listedEntry .moduleEdges v) = toModuleEdge p v := by
  have source : stringMember p "from" (listedEntry .moduleEdges v) = stringMember p "from" v :=
    stringMember_keep v rfl
  have target : stringMember p "to" (listedEntry .moduleEdges v) = stringMember p "to" v :=
    stringMember_keep v rfl
  have kind : stringMember p "kind" (listedEntry .moduleEdges v) = stringMember p "kind" v :=
    stringMember_keep v rfl
  rw [toModuleEdge, toModuleEdge, source, target, kind]

theorem toFunctionNode_listed :
    toFunctionNode p (listedEntry .functions v) = toFunctionNode p v := by
  have mfa : (listedEntry .functions v).get? (text "mfa") = v.get? (text "mfa") :=
    get_keep_of_id v rfl
  rw [toFunctionNode, toFunctionNode, mfa]

theorem toCall_listed : toCall p (listedEntry .calls v) = toCall p v := by
  have kind : stringMember p "kind" (listedEntry .calls v) = stringMember p "kind" v :=
    stringMember_keep v rfl
  have caller : (listedEntry .calls v).get? (text "from") = v.get? (text "from") :=
    get_keep_of_id v rfl
  have callee : (listedEntry .calls v).get? (text "to") = v.get? (text "to") :=
    get_keep_of_id v rfl
  rw [toCall, toCall, kind, caller, callee]

theorem toModuleCall_listed :
    toModuleCall p (listedEntry .moduleCalls v) = toModuleCall p v := by
  have caller : stringMember p "from" (listedEntry .moduleCalls v) = stringMember p "from" v :=
    stringMember_keep v rfl
  have callee : stringMember p "to" (listedEntry .moduleCalls v) = stringMember p "to" v :=
    stringMember_keep v rfl
  rw [toModuleCall, toModuleCall, caller, callee]

theorem entries_listed (root : Value) (s : Section) :
    entries (listed root) s =
      (entries root s).map (List.map fun e => (e.1, listedEntry s e.2)) := by
  have found : (listed root).get? s.name = (root.get? s.name).map (mapItems (listedEntry s)) := by
    rw [listed, get_keep]
    cases s <;> rfl
  have object (v : Value) : (listedEntry s v).object?.isNone = v.object?.isNone := by
    cases s <;> exact object_keep v _
  have moved (items : List Value) :
      placed s (items.map (listedEntry s)) 0 =
        (placed s items 0).map fun e => (e.1, listedEntry s e.2) := by
    rw [placed, placed, List.zipIdx_map, List.map_map, List.map_map]
    rfl
  unfold entries
  rw [found]
  cases root.get? s.name with
  | none => rfl
  | some w =>
    cases w with
    | array items =>
      dsimp only [Option.map_some, mapItems]
      rw [← placed, ← placed, moved, List.find?_map]
      have same (e : Place × Value) : (listedEntry s e.2).object?.isNone = e.2.object?.isNone :=
        object e.2
      simp only [Function.comp_def, same]
      cases (placed s items 0).find? fun e => e.2.object?.isNone <;> rfl
    | _ => rfl

theorem readSection_listed {α : Type} (root : Value) (s : Section)
    {read : Place → Value → Except Error α} (h : ∀ {p} v, read p (listedEntry s v) = read p v) :
    readSection (listed root) s read = readSection root s read := by
  rw [readSection, readSection, entries_listed]
  cases entries root s with
  | error e => rfl
  | ok es =>
    change (es.map _).mapM _ = es.mapM _
    rw [List.mapM_map]
    exact congrArg (fun read => es.mapM read) (funext fun e => h e.2)

/-- An atlas is read from the members that are named by the form of a document. -/
theorem toAtlas_listed (root : Value) : toAtlas (listed root) = toAtlas root := by
  have object : (listed root).object?.isNone = root.object?.isNone := object_keep root _
  rw [toAtlas, toAtlas, object, readSection_listed root .modules toModuleNode_listed,
    readSection_listed root .moduleEdges toModuleEdge_listed,
    readSection_listed root .functions toFunctionNode_listed,
    readSection_listed root .calls toCall_listed,
    readSection_listed root .moduleCalls toModuleCall_listed]

end Listed

/-! ### Texts -/

/-- A text is read exactly if it is JSON for a value of the form of a document. The atlas that is
read has one entry for each entry of the document, in their order, and it is the same for all texts
that differ only in members that are not named by the form. -/
theorem read_iff_form (t : Bytes) :
    ((∃ a, parse t = .ok a) ↔ ∃ root, Json.parse t = .ok root ∧ DocumentForm root) ∧
    (∀ a, parse t = .ok a → ∃ root, Json.parse t = .ok root ∧ Describes root a) ∧
    ∀ root other root', Json.parse t = .ok root → Json.parse other = .ok root' →
      listed root = listed root' → parse t = parse other := by
  refine ⟨?_, fun a => parse_eq_ok_iff_describes.mp, ?_⟩
  · constructor
    · rintro ⟨a, ha⟩
      obtain ⟨root, hroot, describes⟩ := parse_eq_ok_iff_describes.mp ha
      exact ⟨root, hroot, exists_describes_iff.mp ⟨a, describes⟩⟩
    · rintro ⟨root, hroot, form⟩
      obtain ⟨a, describes⟩ := exists_describes_iff.mpr form
      exact ⟨a, parse_eq_ok_iff_describes.mpr ⟨root, hroot, describes⟩⟩
  · intro root other root' hroot hroot' same
    calc parse t
      _ = toAtlas (listed root) := by rw [parse, hroot, toAtlas_listed]
      _ = toAtlas (listed root') := by rw [same]
      _ = parse other := by rw [parse, hroot', toAtlas_listed]

end CallAtlas.Document
