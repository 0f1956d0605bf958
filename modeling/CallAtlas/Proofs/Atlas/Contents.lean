import CallAtlas.Atlas
import CallAtlas.Proofs.Order
import Mathlib.Tactic.SplitIfs

/-! # What an atlas holds

The atlas of a list of records is built in one pass, which keeps what it has listed so far and adds
to it what each record says. Here each of its five parts is described by itself, from the records
alone: what the records suggest, in order and with all repetitions, less what leads nowhere and less
everything but the first of equal entries.

`Reflects` says that an atlas holds what is to be kept of a list of suggestions. Every operation of
the pass keeps it, with one suggestion more, and so does every loop.
-/
namespace CallAtlas

/-- Of a list, what satisfies `keep` is listed once each, at the place where it first stands. One
more element at the end is listed if it is to be kept and is not listed already. -/
theorem eraseDups_filter_concat {α : Type} [DecidableEq α] (keep : α → Bool) (l : List α) (a : α) :
    ((l ++ [a]).filter keep).eraseDups =
      if !keep a || (l.filter keep).eraseDups.contains a then (l.filter keep).eraseDups
      else (l.filter keep).eraseDups ++ [a] := by
  by_cases hk : keep a
  · have kept : (l ++ [a]).filter keep = l.filter keep ++ [a] := by
      simp [List.filter_append, hk]
    rw [kept, List.eraseDups_append]
    by_cases old : a ∈ l
    · simp [List.removeAll, hk, old]
    · simp [List.removeAll, List.eraseDups_cons, hk, old]
  · simp [List.filter_append, hk]

/-- A loop over a list keeps a relation between the part that is done and the state. -/
theorem foldl_keeps {α σ : Type} (R : List α → σ → Prop) {step : σ → α → σ}
    (keeps : ∀ done s a, R done s → R (done ++ [a]) (step s a)) {s : σ} (h : R [] s)
    (l : List α) : R l (l.foldl step s) := by
  have from_ : ∀ done s, R done s → R (done ++ l) (l.foldl step s) := by
    induction l with
    | nil =>
      intro done s hs
      simpa using hs
    | cons a l ih =>
      intro done s hs
      simpa using ih (done ++ [a]) (step s a) (keeps done s a hs)
  exact from_ [] s h

namespace Record

def node (r : Record) : ModuleNode := ⟨r.name, r.file, r.functions⟩

/-- The edge between modules that a call suggests. -/
def callEdge (r : Record) (c : Call) : ModuleEdge := ⟨r.name, c.callee.module, .call⟩

/-- The edge between modules that a directive suggests. -/
def directiveEdge (r : Record) (d : Directive) : ModuleEdge :=
  ⟨r.name, d.target, .directive d.kind⟩

/-- The edges between modules that a record suggests: those of its calls before those of its
directives. -/
def edges (r : Record) : List ModuleEdge :=
  r.calls.map r.callEdge ++ r.directives.map r.directiveEdge

def function (r : Record) (s : Signature) : FunctionName := ⟨r.name, s.name, s.arity⟩

theorem mem_map_function {r : Record} {f : FunctionName} :
    f ∈ r.functions.map r.function ↔ f.module = r.name ∧ f.signature ∈ r.functions := by
  rw [List.mem_map]
  constructor
  · rintro ⟨s, hs, rfl⟩
    exact ⟨rfl, hs⟩
  · rintro ⟨hm, hs⟩
    exact ⟨f.signature, hs, by rw [function, ← hm]; rfl⟩

/-- The call between modules that a call suggests. -/
def moduleCall (r : Record) (c : Call) : ModuleCall := ⟨r.name, c.callee.module⟩

end Record

/-- An edge is drawn between two different modules, of which the second is known. -/
def ModuleEdge.isDrawn (e : ModuleEdge) : Bool := !e.target.isUnknown && e.target ≠ e.source

/-- A call between modules is drawn if it leaves its module. -/
def ModuleCall.isDrawn (c : ModuleCall) : Bool := c.callee ≠ c.caller

namespace Atlas

/-- All that a list of records suggests, with repetitions. -/
structure Suggestions where
  nodes : List ModuleNode
  edges : List ModuleEdge
  functions : List FunctionName
  calls : List Call
  moduleCalls : List ModuleCall

def Suggestions.ofRecords (records : List Record) : Suggestions where
  nodes := records.map (·.node)
  edges := records.flatMap (·.edges)
  functions := records.flatMap fun r => r.functions.map r.function
  calls := records.flatMap (·.calls)
  moduleCalls := records.flatMap fun r => r.calls.map r.moduleCall

/-- An atlas holds what is to be kept of the suggestions. -/
structure Reflects (s : Suggestions) (a : Atlas) : Prop where
  modules : a.modules = s.nodes
  moduleEdges : a.moduleEdges = (s.edges.filter (·.isDrawn)).eraseDups
  increasing : Ordered.Increasing FunctionName.order a.functions
  mem_functions : ∀ f, f ∈ a.functions ↔ f ∈ s.functions
  calls : a.calls = s.calls
  moduleCalls : a.moduleCalls = (s.moduleCalls.filter (·.isDrawn)).eraseDups

namespace Reflects

variable {s : Suggestions} {a : Atlas}

/-! ### One suggestion more -/

theorem addModuleEdge (h : Reflects s a) (e : ModuleEdge) :
    Reflects { s with edges := s.edges ++ [e] } (a.addModuleEdge e) := by
  have listed := eraseDups_filter_concat (·.isDrawn) s.edges e
  rw [← h.moduleEdges] at listed
  have test : (e.target.isUnknown || e.target = e.source || a.moduleEdges.contains e) =
      (!e.isDrawn || a.moduleEdges.contains e) := by
    simp [ModuleEdge.isDrawn]
  unfold Atlas.addModuleEdge
  rw [test]
  split_ifs at listed ⊢
  · exact { h with moduleEdges := listed.symm }
  · exact { h with moduleEdges := listed.symm }

theorem addModuleCall (h : Reflects s a) (c : ModuleCall) :
    Reflects { s with moduleCalls := s.moduleCalls ++ [c] } (a.addModuleCall c) := by
  have listed := eraseDups_filter_concat (·.isDrawn) s.moduleCalls c
  rw [← h.moduleCalls] at listed
  have test : (decide (c.callee = c.caller) || a.moduleCalls.contains c) =
      (!c.isDrawn || a.moduleCalls.contains c) := by
    simp [ModuleCall.isDrawn]
  unfold Atlas.addModuleCall
  rw [test]
  split_ifs at listed ⊢
  · exact { h with moduleCalls := listed.symm }
  · exact { h with moduleCalls := listed.symm }

theorem addFunction (h : Reflects s a) (f : FunctionName) :
    Reflects { s with functions := s.functions ++ [f] } (a.addFunction f) where
  modules := h.modules
  moduleEdges := h.moduleEdges
  increasing := h.increasing.insert f
  mem_functions g := by
    rw [Atlas.addFunction, Ordered.mem_insert (fun _ _ => FunctionName.eq_of_order),
      h.mem_functions]
    simp [or_comm]
  calls := h.calls
  moduleCalls := h.moduleCalls

/-! ### Whole records -/

theorem addRecord {done : List Record} (h : Reflects (.ofRecords done) a) (r : Record) :
    Reflects (.ofRecords (done ++ [r])) (a.addRecord r) := by
  let s := Suggestions.ofRecords done
  let nodes := s.nodes ++ [r.node]
  have h₁ : Reflects { s with nodes } { a with modules := a.modules ++ [r.node] } :=
    { h with modules := by rw [h.modules] }
  have h₂ := foldl_keeps
    (fun done a => Reflects { s with nodes, edges := s.edges ++ done.map r.callEdge } a)
    (fun done a c h => by simpa using h.addModuleEdge (r.callEdge c)) (by simpa using h₁) r.calls
  have h₃ := foldl_keeps
    (fun done a => Reflects { s with
      nodes, edges := s.edges ++ (r.calls.map r.callEdge ++ done.map r.directiveEdge) } a)
    (fun done a d h => by simpa using h.addModuleEdge (r.directiveEdge d))
    (by simpa using h₂) r.directives
  have h₄ := foldl_keeps
    (fun done a => Reflects { s with
      nodes, edges := s.edges ++ r.edges, functions := s.functions ++ done.map r.function } a)
    (fun done a f h => by simpa using h.addFunction (r.function f))
    (by simpa [Record.edges] using h₃) r.functions
  have h₅ := foldl_keeps
    (fun done a => Reflects { s with
      nodes, edges := s.edges ++ r.edges
      functions := s.functions ++ r.functions.map r.function
      moduleCalls := s.moduleCalls ++ done.map r.moduleCall } a)
    (fun done a c h => by simpa using h.addModuleCall (r.moduleCall c))
    (by simpa using h₄) r.calls
  have parts : Suggestions.ofRecords (done ++ [r]) =
      { nodes, edges := s.edges ++ r.edges
        functions := s.functions ++ r.functions.map r.function
        calls := s.calls ++ r.calls
        moduleCalls := s.moduleCalls ++ r.calls.map r.moduleCall } := by
    simp [Suggestions.ofRecords, s, nodes]
  rw [parts]
  exact { h₅ with calls := congrArg (· ++ r.calls) h₅.calls }

end Reflects

theorem reflects_ofRecords (records : List Record) :
    Reflects (.ofRecords records) (ofRecords records) := by
  refine foldl_keeps (fun done a => Reflects (.ofRecords done) a) ?_ ?_ records
  · intro done a r h
    exact h.addRecord r
  · exact ⟨rfl, rfl, List.Pairwise.nil, by simp [Suggestions.ofRecords], rfl, rfl⟩

/-- The atlas of a list of records, part by part. There is a node for every record, also for those
of one name. Edges and calls between modules are those that the records suggest, in order and the
first of equal ones only, but for those that stay in a module and, of the edges, those that lead to
the unknown name. Functions increase strictly, and calls are all listed. -/
theorem build_contents (records : List Record) :
    (build records).value.modules = records.map (·.node) ∧
    (build records).value.moduleEdges =
      ((records.flatMap (·.edges)).filter fun e =>
        !e.target.isUnknown && e.target ≠ e.source).eraseDups ∧
    Ordered.Increasing FunctionName.order (build records).value.functions ∧
    (∀ f, f ∈ (build records).value.functions ↔
      ∃ r ∈ records, f.module = r.name ∧ f.signature ∈ r.functions) ∧
    (build records).value.calls = records.flatMap (·.calls) ∧
    (build records).value.moduleCalls =
      ((records.flatMap fun r => r.calls.map r.moduleCall).filter fun c =>
        c.callee ≠ c.caller).eraseDups := by
  have h : Reflects (.ofRecords records) (build records).value := reflects_ofRecords records
  refine ⟨h.modules, h.moduleEdges, h.increasing, ?_, h.calls, h.moduleCalls⟩
  intro f
  rw [h.mem_functions]
  simp only [Suggestions.ofRecords, List.mem_flatMap, Record.mem_map_function]

end Atlas
end CallAtlas
