import CallAtlas.Atlas.Document
import CallAtlas.Proofs.Except
import CallAtlas.Proofs.Json.RoundTrip
import CallAtlas.Proofs.Name

/-! # A saved atlas is read back

Writing and reading are written one by one for each kind of entry, and each reader is shown to undo
its writer. All that can be lost on the way is a name: the text of a name that is not canonical
reads as another one. So an atlas comes back from its document if all its names are canonical, and
from the document of a part of it that part comes back.
-/
namespace CallAtlas

/-- The names of modules in an atlas. -/
def Atlas.names (a : Atlas) : List ModuleName :=
  a.modules.map (·.name) ++ (a.moduleEdges.flatMap (fun e => [e.source, e.target]) ++
    (a.functions.map (·.module) ++
      (a.calls.flatMap (fun c => [c.caller.module, c.callee.module]) ++
        a.moduleCalls.flatMap fun c => [c.caller, c.callee])))

theorem CallKind.parse_name (kind : CallKind) : parse? kind.name = some kind := by
  cases kind <;> decide

theorem DirectiveKind.parse_name (kind : DirectiveKind) : parse? kind.name = some kind := by
  cases kind <;> decide

theorem EdgeKind.parse_name (kind : EdgeKind) : parse? kind.name = some kind := by
  cases kind with
  | call => decide
  | directive kind =>
    have other : kind.name ≠ text "call" := by cases kind <;> decide
    rw [name, parse?, if_neg other, DirectiveKind.parse_name]
    rfl

namespace Document

open Json (Value)
open Json.Value (Plain)
open ModuleName (Canonical)

/-! ### Entries -/

variable {p : Place}

theorem stringMember_eq {v : Value} {key : String} {s : Bytes}
    (h : v.get? (text key) = some (.string s)) : stringMember p key v = .ok s := by
  rw [stringMember, h]
  rfl

theorem toArity_ofArity (arity : UInt32) : toArity p (ofArity arity) = .ok arity := by
  have small := arity.toNat_lt
  have value : (Int64.ofNat arity.toNat).toInt = arity.toNat :=
    Int64.toInt_ofNat_of_lt (by omega)
  have range : 0 ≤ (Int64.ofNat arity.toNat).toInt ∧
      (Int64.ofNat arity.toNat).toInt < UInt32.size := by
    rw [value]
    exact ⟨Int.natCast_nonneg _, Int.ofNat_lt.mpr small⟩
  change (if _ then _ else _) = _
  rw [if_pos range, value, Int.toNat_natCast, UInt32.ofNat_toNat]

theorem toFunctionName_ofFunctionName {f : FunctionName} (h : f.module.Canonical) :
    toFunctionName p (some (ofFunctionName f)) = .ok f := by
  have name : ModuleName.parse f.module.toText = f.module := ModuleName.canonical_iff.mp h
  simp only [ofFunctionName, ofName, toFunctionName, toArity_ofArity, name]
  rfl

theorem toSignature_ofSignature (s : Signature) : toSignature p (ofSignature s) = .ok s := by
  have name : (ofSignature s).get? (text "name") = some (.string s.name) := rfl
  have arity : (ofSignature s).get? (text "arity") = some (ofArity s.arity) := rfl
  unfold toSignature
  rw [name, arity]
  simp only [Option.bind_some, Value.string?, toArity_ofArity]
  rfl

theorem toModuleNode_ofModuleNode {m : ModuleNode} (h : m.name.Canonical) :
    toModuleNode p (ofModuleNode m) = .ok m := by
  have parsed : ModuleName.parse m.name.toText = m.name := ModuleName.canonical_iff.mp h
  have name : stringMember p "name" (ofModuleNode m) = .ok m.name.toText := stringMember_eq rfl
  have file : stringMember p "file" (ofModuleNode m) = .ok m.file := stringMember_eq rfl
  have functions : (ofModuleNode m).get? (text "functions") =
      some (.array (m.functions.map ofSignature)) := rfl
  have signatures : (m.functions.map ofSignature).mapM (toSignature p) = .ok m.functions :=
    mapM_map_eq_ok fun s _ => toSignature_ofSignature s
  unfold toModuleNode
  rw [name, file, functions]
  simp only [bind, Except.bind, signatures, parsed]
  rfl

theorem toModuleEdge_ofModuleEdge {e : ModuleEdge} (hs : e.source.Canonical)
    (ht : e.target.Canonical) : toModuleEdge p (ofModuleEdge e) = .ok e := by
  have source : stringMember p "from" (ofModuleEdge e) = .ok e.source.toText :=
    stringMember_eq rfl
  have target : stringMember p "to" (ofModuleEdge e) = .ok e.target.toText := stringMember_eq rfl
  have kind : stringMember p "kind" (ofModuleEdge e) = .ok e.kind.name := stringMember_eq rfl
  unfold toModuleEdge
  rw [source, target, kind]
  simp only [bind, Except.bind, EdgeKind.parse_name, ModuleName.canonical_iff.mp hs,
    ModuleName.canonical_iff.mp ht]
  rfl

theorem toFunctionNode_ofFunctionNode {f : FunctionName} (h : f.module.Canonical) :
    toFunctionNode p (ofFunctionNode f) = .ok f :=
  toFunctionName_ofFunctionName h

theorem toCall_ofCall {c : Call} (hcaller : c.caller.module.Canonical)
    (hcallee : c.callee.module.Canonical) : toCall p (ofCall c) = .ok c := by
  have kind : stringMember p "kind" (ofCall c) = .ok c.kind.name := stringMember_eq rfl
  have caller : toFunctionName p ((ofCall c).get? (text "from")) = .ok c.caller :=
    toFunctionName_ofFunctionName hcaller
  have callee : toFunctionName p ((ofCall c).get? (text "to")) = .ok c.callee :=
    toFunctionName_ofFunctionName hcallee
  unfold toCall
  rw [kind]
  simp only [bind, Except.bind, CallKind.parse_name, caller, callee]
  rfl

theorem toModuleCall_ofModuleCall {c : ModuleCall} (hcaller : c.caller.Canonical)
    (hcallee : c.callee.Canonical) : toModuleCall p (ofModuleCall c) = .ok c := by
  have caller : stringMember p "from" (ofModuleCall c) = .ok c.caller.toText :=
    stringMember_eq rfl
  have callee : stringMember p "to" (ofModuleCall c) = .ok c.callee.toText := stringMember_eq rfl
  unfold toModuleCall
  rw [caller, callee]
  simp only [bind, Except.bind, ModuleName.canonical_iff.mp hcaller,
    ModuleName.canonical_iff.mp hcallee]
  rfl

/-! ### Sections -/

theorem get_ofAtlas (part : Part) (a : Atlas) (s : Section) :
    (ofAtlas part a).get? s.name =
      if s ∈ part.sections then some (ofSection a s) else none := by
  cases part <;> cases s <;> rfl

/-- The entries of an array with their places, which are counted from `start`. -/
def placed (s : Section) (items : List Value) (start : Nat) : List (Place × Value) :=
  (items.zipIdx start).map fun (v, index) => (Place.mk s index, v)

theorem mem_of_placed {s : Section} {items : List Value} {start : Nat} {e : Place × Value}
    (h : e ∈ placed s items start) : e.2 ∈ items := by
  obtain ⟨⟨v, index⟩, hv, rfl⟩ := List.mem_map.mp h
  exact List.fst_mem_of_mem_zipIdx hv

theorem entries_eq {root : Value} {s : Section} {items : List Value}
    (h : root.get? s.name = some (.array items)) (objects : ∀ v ∈ items, v.object?.isSome) :
    entries root s = .ok (placed s items 0) := by
  unfold entries
  rw [h]
  dsimp only
  split
  · rename_i p v found
    have object := objects v (mem_of_placed (List.mem_of_find?_eq_some found))
    have noObject := List.find?_some found
    exact absurd (Option.isNone_iff_eq_none.mp noObject) (Option.isSome_iff_ne_none.mp object)
  · rfl

theorem mapM_placed {α : Type} {s : Section} {write : α → Value}
    {read : Place → Value → Except Error α} {xs : List α}
    (h : ∀ x ∈ xs, ∀ p, read p (write x) = .ok x) (start : Nat) :
    (placed s (xs.map write) start).mapM (fun (p, v) => read p v) = .ok xs := by
  induction xs generalizing start with
  | nil => rfl
  | cons x xs ih =>
    obtain ⟨first, others⟩ := List.forall_mem_cons.mp h
    have split : placed s ((x :: xs).map write) start =
        (⟨s, start⟩, write x) :: placed s (xs.map write) (start + 1) := rfl
    rw [split, List.mapM_cons, ih others]
    simp only [first]
    rfl

/-- Of the sections of a part the entries come back, and of the others none. -/
theorem readSection_ofAtlas {α : Type} (part : Part) {a : Atlas} {s : Section}
    {write : α → Value} {read : Place → Value → Except Error α} {xs : List α}
    (listed : ofSection a s = .array (xs.map write))
    (objects : ∀ x, (write x).object?.isSome)
    (undoes : ∀ x ∈ xs, ∀ p, read p (write x) = .ok x) :
    readSection (ofAtlas part a) s read = .ok (if s ∈ part.sections then xs else []) := by
  have found := get_ofAtlas part a s
  unfold readSection
  split at found
  · rename_i hs
    rw [listed] at found
    rw [entries_eq found (List.forall_mem_map.mpr fun x _ => objects x), if_pos hs]
    exact mapM_placed undoes 0
  · rename_i hs
    rw [entries, found, if_neg hs]
    rfl

/-! ### Whole atlases -/

theorem Part.of_eq (part : Part) (a : Atlas) :
    part.of a =
      { modules := if .modules ∈ part.sections then a.modules else []
        moduleEdges := if .moduleEdges ∈ part.sections then a.moduleEdges else []
        functions := if .functions ∈ part.sections then a.functions else []
        calls := if .calls ∈ part.sections then a.calls else []
        moduleCalls := if .moduleCalls ∈ part.sections then a.moduleCalls else [] } := by
  cases part <;> rfl

theorem toAtlas_ofAtlas (part : Part) {a : Atlas} (h : ∀ n ∈ a.names, n.Canonical) :
    toAtlas (ofAtlas part a) = .ok (part.of a) := by
  simp only [Atlas.names, List.forall_mem_append, List.forall_mem_map, List.forall_mem_flatMap,
    List.forall_mem_cons, List.not_mem_nil, false_implies, implies_true, and_true] at h
  obtain ⟨hmodules, hedges, hfunctions, hcalls, hmoduleCalls⟩ := h
  have modules : readSection (ofAtlas part a) .modules toModuleNode = _ :=
    readSection_ofAtlas part rfl (fun _ => rfl)
      fun m hm _ => toModuleNode_ofModuleNode (hmodules m hm)
  have edges : readSection (ofAtlas part a) .moduleEdges toModuleEdge = _ :=
    readSection_ofAtlas part rfl (fun _ => rfl)
      fun e he _ => toModuleEdge_ofModuleEdge (hedges e he).1 (hedges e he).2
  have functions : readSection (ofAtlas part a) .functions toFunctionNode = _ :=
    readSection_ofAtlas part rfl (fun _ => rfl)
      fun f hf _ => toFunctionNode_ofFunctionNode (hfunctions f hf)
  have calls : readSection (ofAtlas part a) .calls toCall = _ :=
    readSection_ofAtlas part rfl (fun _ => rfl)
      fun c hc _ => toCall_ofCall (hcalls c hc).1 (hcalls c hc).2
  have moduleCalls : readSection (ofAtlas part a) .moduleCalls toModuleCall = _ :=
    readSection_ofAtlas part rfl (fun _ => rfl)
      fun c hc _ => toModuleCall_ofModuleCall (hmoduleCalls c hc).1 (hmoduleCalls c hc).2
  unfold toAtlas
  rw [modules, edges, functions, calls, moduleCalls, Part.of_eq]
  rfl

/-! ### Documents are plain -/

section Plain

variable {d : Nat}

theorem plain_ofName (name : ModuleName) : Plain d (ofName name) := .string

theorem plain_ofArity (arity : UInt32) : Plain d (ofArity arity) := .integer

theorem plain_ofFunctionName (f : FunctionName) : Plain (d + 1) (ofFunctionName f) := by
  refine .array ?_
  simp [plain_ofName, plain_ofArity, Plain.string]

theorem plain_ofSignature (s : Signature) : Plain (d + 1) (ofSignature s) := by
  refine .ofMembers ?_
  simp [plain_ofArity, Plain.string]

theorem plain_ofModuleNode (m : ModuleNode) : Plain (d + 3) (ofModuleNode m) := by
  have functions : Plain (d + 2) (.array (m.functions.map ofSignature)) :=
    .array (List.forall_mem_map.mpr fun s _ => plain_ofSignature s)
  refine .ofMembers ?_
  simp [plain_ofName, functions, Plain.string]

theorem plain_ofModuleEdge (e : ModuleEdge) : Plain (d + 1) (ofModuleEdge e) := by
  refine .ofMembers ?_
  simp [plain_ofName, Plain.string]

theorem plain_ofFunctionNode (f : FunctionName) : Plain (d + 2) (ofFunctionNode f) := by
  refine .ofMembers ?_
  simp [plain_ofFunctionName]

theorem plain_ofCall (c : Call) : Plain (d + 2) (ofCall c) := by
  refine .ofMembers ?_
  simp [plain_ofFunctionName, Plain.string]

theorem plain_ofModuleCall (c : ModuleCall) : Plain (d + 1) (ofModuleCall c) := by
  refine .ofMembers ?_
  simp [plain_ofName]

theorem plain_ofSection (a : Atlas) (s : Section) : Plain (d + 4) (ofSection a s) := by
  cases s with
  | modules => exact .array (List.forall_mem_map.mpr fun m _ => plain_ofModuleNode m)
  | moduleEdges => exact .array (List.forall_mem_map.mpr fun e _ => plain_ofModuleEdge e)
  | functions => exact .array (List.forall_mem_map.mpr fun f _ => plain_ofFunctionNode f)
  | calls => exact .array (List.forall_mem_map.mpr fun c _ => plain_ofCall c)
  | moduleCalls => exact .array (List.forall_mem_map.mpr fun c _ => plain_ofModuleCall c)

theorem plain_ofAtlas (part : Part) (a : Atlas) : Plain (d + 5) (ofAtlas part a) :=
  .ofMembers (List.forall_mem_map.mpr fun s _ => plain_ofSection a s)

end Plain

/-- What the document of a part of an atlas says is that part. -/
theorem parse_pretty_ofAtlas (part : Part) (indent : Nat) {a : Atlas}
    (h : ∀ n ∈ a.names, n.Canonical) :
    parse ((ofAtlas part a).pretty indent) = .ok (part.of a) := by
  have plain : Plain Json.maxDepth (ofAtlas part a) := plain_ofAtlas part a
  rw [parse, plain.parse_pretty indent]
  exact toAtlas_ofAtlas part h

theorem parse_compact_ofAtlas (part : Part) {a : Atlas} (h : ∀ n ∈ a.names, n.Canonical) :
    parse (ofAtlas part a).compact = .ok (part.of a) := by
  have plain : Plain Json.maxDepth (ofAtlas part a) := plain_ofAtlas part a
  rw [parse, plain.parse_compact]
  exact toAtlas_ofAtlas part h

/-- If all names of an atlas are read back from their text, then so is any part of it from the
document of that part, in the compact layout and in the pretty one with any indent. The arrays that
do not belong to the part are empty. -/
theorem part_restored (part : Part) {a : Atlas}
    (names : ∀ n ∈ a.names, ModuleName.parse n.toText = n) :
    parse (ofAtlas part a).compact = .ok (part.of a) ∧
      ∀ indent, parse ((ofAtlas part a).pretty indent) = .ok (part.of a) := by
  have canonical : ∀ n ∈ a.names, n.Canonical := by
    intro n hn
    exact ModuleName.canonical_iff.mpr (names n hn)
  constructor
  · exact parse_compact_ofAtlas part canonical
  · intro indent
    exact parse_pretty_ofAtlas part indent canonical

/-- An atlas with names of every kind, a file name that is no text, the largest arity and a call
that is listed twice. -/
def sampleAtlas : Atlas :=
  let a : ModuleName := .elixir (text "A") [text "B"]
  let f : FunctionName := ⟨a, text "\"\n", 4294967295⟩
  let call : Call := ⟨.remote, f, ⟨.unknown, [], 0⟩⟩
  { modules := [⟨a, [0, 255], [f.signature]⟩]
    moduleEdges := [⟨a, .erlang (text "ets"), .directive .use⟩]
    functions := [f]
    calls := [call, ⟨.sameModule, f, f⟩, call]
    moduleCalls := [⟨a, .unknown⟩] }

theorem sampleAtlas_restored :
    (∀ n ∈ sampleAtlas.names, ModuleName.parse n.toText = n) ∧
      parse (ofAtlas .calls sampleAtlas).compact =
        .ok { functions := sampleAtlas.functions, calls := sampleAtlas.calls } ∧
      parse ((ofAtlas .moduleCalls sampleAtlas).pretty 3) =
        .ok { modules := sampleAtlas.modules, moduleCalls := sampleAtlas.moduleCalls } := by
  have names : ∀ n ∈ sampleAtlas.names, ModuleName.parse n.toText = n := by decide
  exact ⟨names, (part_restored .calls names).1, (part_restored .moduleCalls names).2 3⟩

end Document
end CallAtlas
