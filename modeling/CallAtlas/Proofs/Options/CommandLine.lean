import CallAtlas.Options.CommandLine
import CallAtlas.Proofs.Except
import Mathlib.Data.List.Induction
import Mathlib.Tactic.MkIffOfInductiveProp

/-! # The language of the command line

A command line is a list of words. A word is a logging option, a flag, an option with its value or a
path, and it is spelled by one argument or, where the value stands apart, by two. The arguments that
are accepted are those that spell words of which each names what it should and which together give
just one thing to analyse. What such a command line asks for is, option by option, the last word
about it.

The reader splits an argument at its equals sign before it knows what the name is. So a flag may be
spelled with a value behind it, and that value says nothing.
-/
namespace CallAtlas

/-- The names of a flag. -/
def SwitchOption.names : SwitchOption → List Bytes
  | .help => [text "--help", text "-h"]
  | .version => [text "--version", text "-V"]
  | .internalOnly => [text "--internal-only"]
  | .noInternalOnly => [text "--no-internal-only"]
  | .includeTests => [text "--include-tests"]

/-- The names of an option that takes a value. -/
def ValueOption.names : ValueOption → List Bytes
  | .format => [text "--format", text "-f"]
  | .graph => [text "--graph", text "-g"]
  | .prune => [text "--prune"]
  | .output => [text "--output", text "-o"]
  | .config => [text "--config"]
  | .fromJson => [text "--from-json"]

/-- A table that lists each thing under all of its names finds it by these names only. -/
theorem lookup_eq_some_iff_mem {α : Type} {table : List (Bytes × α)} {names : α → List Bytes}
    (listed : ∀ entry ∈ table, entry.1 ∈ names entry.2)
    (found : ∀ thing, ∀ name ∈ names thing, table.lookup name = some thing) {name : Bytes}
    {thing : α} : table.lookup name = some thing ↔ name ∈ names thing := by
  constructor
  · intro h
    obtain ⟨before, behind, rfl, -⟩ := List.lookup_eq_some_iff.mp h
    exact listed (name, thing) (by simp)
  · exact found thing name

theorem SwitchOption.ofName?_eq_some_iff {name : Bytes} {option : SwitchOption} :
    SwitchOption.ofName? name = some option ↔ name ∈ option.names :=
  lookup_eq_some_iff_mem (by decide) (by intro option; cases option <;> decide)

theorem ValueOption.ofName?_eq_some_iff {name : Bytes} {option : ValueOption} :
    ValueOption.ofName? name = some option ↔ name ∈ option.names :=
  lookup_eq_some_iff_mem (by decide) (by intro option; cases option <;> decide)

namespace Log

/-- The logging options: a setting behind one of four names, one of three fixed words, or `-v` with
any number of letters. -/
inductive IsOption : Bytes → Prop
  | setting {name} (value : Bytes) :
      name ∈ ["--log-level=", "--log-filter=", "--log-file=", "--log-format="] →
      IsOption (text name ++ value)
  | fixed {name} : name ∈ ["-q", "--quiet", "--verbose"] → IsOption (text name)
  | verbose (more : Nat) : IsOption (text "-v" ++ List.replicate more ('v' : UInt8))

namespace Flag

theorem isSome_after? {mark : String} {t : Bytes} : (after? mark t).isSome ↔ text mark <+: t := by
  unfold after?
  split <;> simp_all

theorem isSome_verbosity? {t : Bytes} :
    (verbosity? t).isSome ↔ ∃ more, t = text "-v" ++ List.replicate more ('v' : UInt8) := by
  constructor
  · intro h
    unfold verbosity? at h
    split at h
    · rename_i dash letters
      split at h
      · rename_i spelled
        obtain ⟨rfl, some, all⟩ := spelled
        have letters_eq : letters = List.replicate letters.length ('v' : UInt8) := by
          apply List.eq_replicate_of_mem
          simpa using all
        obtain ⟨more, long⟩ := Nat.exists_eq_succ_of_ne_zero (mt List.length_eq_zero_iff.mp some)
        refine ⟨more, ?_⟩
        rw [letters_eq, long]
        rfl
      · cases h
    · cases h
  · rintro ⟨more, rfl⟩
    have spelled : verbosity? ('-' :: 'v' :: List.replicate more ('v' : UInt8)) =
        some (more + 1) := by
      simp [verbosity?]
    exact spelled ▸ rfl

theorem isSome_parse? {t : Bytes} : (Flag.parse? t).isSome ↔ IsOption t := by
  have settings : (Flag.parse? t).isSome ↔
      (t = text "-q" ∨ t = text "--quiet") ∨ t = text "--verbose" ∨ text "--log-level=" <+: t ∨
        text "--log-filter=" <+: t ∨ text "--log-file=" <+: t ∨ text "--log-format=" <+: t ∨
        ∃ more, t = text "-v" ++ List.replicate more ('v' : UInt8) := by
    unfold parse?
    split
    · simp_all
    · split
      · simp_all
      · simp_all [← isSome_after?, ← isSome_verbosity?]
  rw [settings]
  constructor
  · rintro ((rfl | rfl) | rfl | ⟨value, rfl⟩ | ⟨value, rfl⟩ | ⟨value, rfl⟩ | ⟨value, rfl⟩ |
      ⟨more, rfl⟩)
    · exact .fixed (by decide)
    · exact .fixed (by decide)
    · exact .fixed (by decide)
    · exact .setting value (by decide)
    · exact .setting value (by decide)
    · exact .setting value (by decide)
    · exact .setting value (by decide)
    · exact .verbose more
  · rintro (⟨value, name⟩ | name | more)
    · simp only [List.mem_cons, List.not_mem_nil, or_false] at name
      rcases name with rfl | rfl | rfl | rfl <;> simp
    · simp only [List.mem_cons, List.not_mem_nil, or_false] at name
      rcases name with rfl | rfl | rfl <;> simp
    · simp

end Flag
end Log

namespace CommandLine

/-- What one argument says, or two of them. -/
inductive Word where
  | logging
  /-- A flag, with what is written behind its equals sign, if it has one. -/
  | switch (option : SwitchOption) (ignored : Option Bytes)
  | value (option : ValueOption) (value : Bytes)
  | path (path : Bytes)

/-- A path starts with no dash, unless it is a lone dash. -/
def IsPath (argument : Bytes) : Prop := argument = text "-" ∨ argument.head? ≠ some ('-' : UInt8)

/-- The arguments that spell a list of words. -/
inductive Spells : List Word → List Bytes → Prop
  | nil : Spells [] []
  | logging {words arguments argument} : Log.IsOption argument → Spells words arguments →
      Spells (.logging :: words) (argument :: arguments)
  | switch {words arguments option name} : name ∈ SwitchOption.names option →
      Spells words arguments → Spells (.switch option none :: words) (name :: arguments)
  | switchIgnoring {words arguments option name} (ignored : Bytes) :
      name ∈ SwitchOption.names option → text "--" <+: name → Spells words arguments →
      Spells (.switch option (some ignored) :: words)
        ((name ++ ('=' : UInt8) :: ignored) :: arguments)
  | inline {words arguments option name} (value : Bytes) : name ∈ ValueOption.names option →
      text "--" <+: name → Spells words arguments →
      Spells (.value option value :: words) ((name ++ ('=' : UInt8) :: value) :: arguments)
  | apart {words arguments option name} (value : Bytes) : name ∈ ValueOption.names option →
      Spells words arguments → Spells (.value option value :: words) (name :: value :: arguments)
  | path {words arguments argument} : IsPath argument → Spells words arguments →
      Spells (.path argument :: words) (argument :: arguments)

/-! ### Splitting an argument -/

theorem splitValue_of_not_mem {name : Bytes} (h : ('=' : UInt8) ∉ name) :
    splitValue name = (name, none) := by
  unfold splitValue
  split
  · exact Bytes.cut_of_not_mem h
  · rfl

theorem splitValue_append {name : Bytes} (value : Bytes) (long : text "--" <+: name)
    (h : ('=' : UInt8) ∉ name) :
    splitValue (name ++ ('=' : UInt8) :: value) = (name, some value) := by
  have starts : (text "--").isPrefixOf (name ++ ('=' : UInt8) :: value) :=
    List.isPrefixOf_iff_prefix.mpr (long.trans (List.prefix_append _ _))
  rw [splitValue, if_pos starts]
  exact Bytes.cut_append value h

/-- An argument without a value of its own is all name. -/
theorem eq_of_splitValue {argument name : Bytes} (h : splitValue argument = (name, none)) :
    argument = name := by
  unfold splitValue at h
  split at h
  · have joined := Bytes.cut_join '=' argument
    simpa [h] using joined.symm
  · exact congrArg Prod.fst h

/-- Only a long name has a value of its own. -/
theorem long_of_splitValue {argument name value : Bytes}
    (h : splitValue argument = (name, some value)) :
    argument = name ++ ('=' : UInt8) :: value ∧ text "--" <+: name := by
  unfold splitValue at h
  split at h
  · rename_i starts
    have joined := Bytes.cut_join '=' argument
    rw [h] at joined
    refine ⟨joined.symm, ?_⟩
    obtain ⟨rest, rfl⟩ := List.isPrefixOf_iff_prefix.mp starts
    have name_eq : name = text "--" ++ (Bytes.cut '=' rest).1 := (congrArg Prod.fst h).symm
    exact name_eq ▸ List.prefix_append _ _
  · cases h

end CommandLine

/-! ### Names and paths -/

open CommandLine

namespace CommandLine

instance : DecidablePred IsPath := fun _ => inferInstanceAs (Decidable (_ ∨ _))

theorem not_isPath_cons (b : UInt8) (more : Bytes) : ¬ IsPath (('-' : UInt8) :: b :: more) := by
  rintro (h | h)
  · cases (List.cons.inj h).2
  · exact h rfl

theorem isPath_iff {argument : Bytes} :
    IsPath argument ↔ ((text "-").isPrefixOf argument && 1 < argument.length) = false := by
  have dash : text "-" = [('-' : UInt8)] := by decide
  unfold IsPath
  rw [dash]
  match argument with
  | [] => simp
  | [b] => simp [Classical.em]
  | b :: c :: more => simp [List.isPrefixOf, eq_comm (a := b)]

theorem splitValue_of_isPath {argument : Bytes} (h : IsPath argument) :
    splitValue argument = (argument, none) := by
  unfold splitValue
  split
  · rename_i long
    obtain ⟨rest, rfl⟩ := List.isPrefixOf_iff_prefix.mp long
    exact absurd h (not_isPath_cons '-' rest)
  · rfl

end CommandLine

theorem SwitchOption.of_mem_names {option : SwitchOption} {name : Bytes}
    (h : name ∈ option.names) :
    ('=' : UInt8) ∉ name ∧ ¬ IsPath name ∧ ValueOption.ofName? name = none := by
  cases option <;> revert name <;> decide

theorem ValueOption.of_mem_names {option : ValueOption} {name : Bytes}
    (h : name ∈ option.names) : ('=' : UInt8) ∉ name ∧ ¬ IsPath name := by
  cases option <;> revert name <;> decide

theorem Log.IsOption.unnamed {argument : Bytes} (h : Log.IsOption argument) :
    SwitchOption.ofName? (splitValue argument).1 = none ∧
      ValueOption.ofName? (splitValue argument).1 = none ∧ ¬ IsPath argument := by
  cases h with
  | setting value name =>
    simp only [List.mem_cons, List.not_mem_nil, or_false] at name
    rcases name with rfl | rfl | rfl | rfl <;> exact ⟨rfl, rfl, not_isPath_cons _ _⟩
  | fixed name =>
    simp only [List.mem_cons, List.not_mem_nil, or_false] at name
    rcases name with rfl | rfl | rfl <;> decide
  | verbose more => exact ⟨rfl, rfl, not_isPath_cons _ _⟩

namespace CommandLine

/-! ### Words in place of arguments -/

/-- Takes up one word. -/
def addOne (c : CommandLine) : Word → Except UsageError CommandLine
  | .logging => .ok c
  | .switch option _ => .ok (c.switch option)
  | .value option value => c.setValue option value
  | .path path =>
    if c.projectPath.isEmpty then .ok { c with projectPath := path }
    else .error (.unexpectedArgument path)

section Arguments

variable {c : CommandLine} {argument name value : Bytes} {rest : List Bytes}

theorem addAll_logging (h : Log.IsOption argument) :
    addAll c (argument :: rest) = addAll c rest := by
  rw [addAll, if_pos (Log.Flag.isSome_parse?.mpr h)]

/-- An argument that names an option is no logging option. -/
theorem not_logging_of_switch {option : SwitchOption} {inline : Option Bytes}
    (h : splitValue argument = (name, inline)) (named : name ∈ option.names) :
    (Log.Flag.parse? argument).isSome = false := by
  rw [Bool.eq_false_iff, ne_eq, Log.Flag.isSome_parse?]
  intro logging
  have unnamed := logging.unnamed.1
  rw [h, SwitchOption.ofName?_eq_some_iff.mpr named] at unnamed
  cases unnamed

theorem not_logging_of_value {option : ValueOption} {inline : Option Bytes}
    (h : splitValue argument = (name, inline)) (named : name ∈ option.names) :
    (Log.Flag.parse? argument).isSome = false := by
  rw [Bool.eq_false_iff, ne_eq, Log.Flag.isSome_parse?]
  intro logging
  have unnamed := logging.unnamed.2.1
  rw [h, ValueOption.ofName?_eq_some_iff.mpr named] at unnamed
  cases unnamed

theorem addAll_switch {option : SwitchOption} {ignored : Option Bytes}
    (h : splitValue argument = (name, ignored)) (named : name ∈ option.names) :
    addAll c (argument :: rest) = addAll (c.switch option) rest := by
  rw [addAll, not_logging_of_switch h named, h]
  simp only [Bool.false_eq_true, ↓reduceIte, (SwitchOption.of_mem_names named).2.2, addWord,
    SwitchOption.ofName?_eq_some_iff.mpr named]
  rfl

theorem addAll_inline {option : ValueOption} (h : splitValue argument = (name, some value))
    (named : name ∈ option.names) :
    addAll c (argument :: rest) = c.setValue option value >>= (addAll · rest) := by
  rw [addAll, not_logging_of_value h named, h]
  simp only [Bool.false_eq_true, ↓reduceIte, ValueOption.ofName?_eq_some_iff.mpr named]

theorem addAll_apart {option : ValueOption} (named : name ∈ option.names) :
    addAll c (name :: value :: rest) = c.setValue option value >>= (addAll · rest) := by
  have whole := splitValue_of_not_mem (ValueOption.of_mem_names named).1
  rw [addAll, not_logging_of_value whole named, whole]
  simp only [Bool.false_eq_true, ↓reduceIte, ValueOption.ofName?_eq_some_iff.mpr named]

theorem addAll_path (h : IsPath argument) :
    addAll c (argument :: rest) = addOne c (.path argument) >>= (addAll · rest) := by
  have plain : (Log.Flag.parse? argument).isSome = false := by
    rw [Bool.eq_false_iff, ne_eq, Log.Flag.isSome_parse?]
    exact fun logging => logging.unnamed.2.2 h
  have noValue : ValueOption.ofName? argument = none := by
    rw [Option.eq_none_iff_forall_ne_some]
    exact fun option named =>
      (ValueOption.of_mem_names (ValueOption.ofName?_eq_some_iff.mp named)).2 h
  have noSwitch : SwitchOption.ofName? argument = none := by
    rw [Option.eq_none_iff_forall_ne_some]
    exact fun option named =>
      (SwitchOption.of_mem_names (SwitchOption.ofName?_eq_some_iff.mp named)).2.1 h
  rw [addAll, plain, splitValue_of_isPath h]
  simp only [Bool.false_eq_true, ↓reduceIte, noValue, noSwitch, addWord, isPath_iff.mp h, addOne]

end Arguments

/-- Arguments that spell words are read word by word. -/
theorem Spells.addAll_eq {words : List Word} {arguments : List Bytes} (h : Spells words arguments)
    (c : CommandLine) : addAll c arguments = words.foldlM addOne c := by
  induction h generalizing c with
  | nil => rfl
  | logging option _ ih => rw [addAll_logging option, ih]; rfl
  | switch named _ ih =>
    rw [addAll_switch (splitValue_of_not_mem (SwitchOption.of_mem_names named).1) named, ih]
    rfl
  | switchIgnoring ignored named long _ ih =>
    have split := splitValue_append ignored long (SwitchOption.of_mem_names named).1
    rw [addAll_switch split named, ih]
    rfl
  | inline value named long _ ih =>
    have split := splitValue_append value long (ValueOption.of_mem_names named).1
    rw [addAll_inline split named, List.foldlM_cons]
    simp only [ih]
    rfl
  | apart value named _ ih =>
    rw [addAll_apart named, List.foldlM_cons]
    simp only [ih]
    rfl
  | path isPath _ ih =>
    rw [addAll_path isPath, List.foldlM_cons]
    simp only [ih]

/-- Arguments that are all taken up spell words. -/
theorem exists_spells {c c' : CommandLine} {arguments : List Bytes}
    (h : addAll c arguments = .ok c') : ∃ words, Spells words arguments := by
  fun_induction addAll c arguments with
  | case1 => exact ⟨[], .nil⟩
  | case2 c argument rest logging ih =>
    obtain ⟨words, spelled⟩ := ih h
    exact ⟨_, .logging (Log.Flag.isSome_parse?.mp logging) spelled⟩
  | case3 c argument rest plain name inline split noValue ih =>
    obtain ⟨next, added, h⟩ := bind_eq_ok h
    obtain ⟨words, spelled⟩ := ih next h
    unfold addWord at added
    split at added
    · rename_i option named
      rw [SwitchOption.ofName?_eq_some_iff] at named
      cases inline with
      | none =>
        obtain rfl := eq_of_splitValue split
        exact ⟨_, .switch named spelled⟩
      | some ignored =>
        obtain ⟨rfl, long⟩ := long_of_splitValue split
        exact ⟨_, .switchIgnoring ignored named long spelled⟩
    · split at added
      · cases added
      · rename_i isPath
        rw [Bool.not_eq_true, ← isPath_iff] at isPath
        cases inline with
        | none =>
          obtain rfl := eq_of_splitValue split
          exact ⟨_, .path isPath spelled⟩
        | some value =>
          obtain ⟨rest, rfl⟩ := (long_of_splitValue split).2
          exact absurd isPath (not_isPath_cons '-' rest)
  | case4 c argument rest plain name option named value split ih =>
    obtain ⟨next, -, h⟩ := bind_eq_ok h
    obtain ⟨words, spelled⟩ := ih next h
    obtain ⟨rfl, long⟩ := long_of_splitValue split
    exact ⟨_, .inline value (ValueOption.ofName?_eq_some_iff.mp named) long spelled⟩
  | case5 c argument plain name option named value rest split ih =>
    obtain ⟨next, -, h⟩ := bind_eq_ok h
    obtain ⟨words, spelled⟩ := ih next h
    obtain rfl := eq_of_splitValue split
    exact ⟨_, .apart value (ValueOption.ofName?_eq_some_iff.mp named) spelled⟩
  | case6 => cases h

/-! ### What words ask for -/

/-- The values given to an option, in order. -/
def valuesOf (option : ValueOption) (words : List Word) : List Bytes :=
  words.filterMap fun
    | .value given value => if given = option then some value else none
    | _ => none

def pathsOf (words : List Word) : List Bytes :=
  words.filterMap fun
    | .path path => some path
    | _ => none

def switchesOf (words : List Word) : List SwitchOption :=
  words.filterMap fun
    | .switch option _ => some option
    | _ => none

theorem valuesOf_concat (option : ValueOption) (words : List Word) (word : Word) :
    valuesOf option (words ++ [word]) = valuesOf option words ++
      match word with
      | .value given value => if given = option then [value] else []
      | _ => [] := by
  cases word with
  | value given value => by_cases same : given = option <;> simp [valuesOf, same]
  | _ => simp [valuesOf]

theorem pathsOf_concat (words : List Word) (word : Word) :
    pathsOf (words ++ [word]) = pathsOf words ++
      match word with
      | .path path => [path]
      | _ => [] := by
  cases word <;> simp [pathsOf]

theorem switchesOf_concat (words : List Word) (word : Word) :
    switchesOf (words ++ [word]) = switchesOf words ++
      match word with
      | .switch option _ => [option]
      | _ => [] := by
  cases word <;> simp [switchesOf]

/-- What a flag says about modules that are not scanned. -/
def internal? : SwitchOption → Option Bool
  | .internalOnly => some true
  | .noInternalOnly => some false
  | _ => none

/-- What words ask for. The last word about an option counts. -/
def ofWords (words : List Word) : CommandLine where
  projectPath := (pathsOf words).getLast?.getD []
  fromJson := (valuesOf .fromJson words).getLast?.getD []
  configPath := (valuesOf .config words).getLast?.getD []
  help := .help ∈ switchesOf words
  version := .version ∈ switchesOf words
  format := (valuesOf .format words).getLast?.bind Format.parse?
  graph := (valuesOf .graph words).getLast?.bind GraphKind.parse?
  prune := (valuesOf .prune words).getLast?.map Dot.parsePruneList
  internalOnly := ((switchesOf words).filterMap internal?).getLast?
  includeTests := if .includeTests ∈ switchesOf words then some true else none
  outputDir := (valuesOf .output words).getLast?

/-- Words that can be taken up one after the other: formats and graphs have their names, and no path
follows one that is not empty. -/
@[mk_iff] structure Takable (words : List Word) : Prop where
  formats : ∀ value ∈ valuesOf .format words, ∃ format : Format, value = format.name
  graphs : ∀ value ∈ valuesOf .graph words, ∃ graph : GraphKind, value = graph.name
  paths : ∀ path ∈ (pathsOf words).dropLast, path = []

/-- Words that make up a command line: they can be taken up, and unless they ask for help or the
version they give either a path or a saved document. -/
@[mk_iff] structure Admissible (words : List Word) : Prop extends Takable words where
  input : .help ∈ switchesOf words ∨ .version ∈ switchesOf words ∨
    ¬ ((pathsOf words).getLast?.getD [] = [] ↔ (valuesOf .fromJson words).getLast?.getD [] = [])

/-- What has to hold of a word that is taken up behind others. -/
def Follows (words : List Word) : Word → Prop
  | .value .format value => ∃ format : Format, value = format.name
  | .value .graph value => ∃ graph : GraphKind, value = graph.name
  | .path _ => (pathsOf words).getLast?.getD [] = []
  | _ => True

theorem ofWords_logging (words : List Word) : ofWords (words ++ [.logging]) = ofWords words := by
  simp only [ofWords, valuesOf_concat, pathsOf_concat, switchesOf_concat, List.append_nil]

theorem ofWords_switch (words : List Word) (option : SwitchOption) (ignored : Option Bytes) :
    ofWords (words ++ [.switch option ignored]) = (ofWords words).switch option := by
  cases option <;>
    simp [ofWords, valuesOf_concat, pathsOf_concat, switchesOf_concat, internal?, switch]

theorem ofWords_path (words : List Word) (path : Bytes) :
    ofWords (words ++ [.path path]) = { ofWords words with projectPath := path } := by
  simp [ofWords, valuesOf_concat, pathsOf_concat, switchesOf_concat]

/-- A value is the last one of its option. -/
theorem ofWords_value (words : List Word) (option : ValueOption) (value : Bytes) :
    ofWords (words ++ [.value option value]) =
      match option with
      | .format => { ofWords words with format := Format.parse? value }
      | .graph => { ofWords words with graph := GraphKind.parse? value }
      | .prune => { ofWords words with prune := some (Dot.parsePruneList value) }
      | .output => { ofWords words with outputDir := some value }
      | .config => { ofWords words with configPath := value }
      | .fromJson => { ofWords words with fromJson := value } := by
  unfold ofWords
  simp only [valuesOf_concat, pathsOf_concat, switchesOf_concat, List.append_nil]
  cases option <;>
    simp only [reduceCtorEq, ↓reduceIte, List.append_nil, List.getLast?_concat, Option.bind_some,
      Option.map_some, Option.getD_some]

/-- A value is taken up just if it may follow. -/
theorem setValue_ofWords {words : List Word} {option : ValueOption} {value : Bytes}
    {c : CommandLine} :
    (ofWords words).setValue option value = .ok c ↔
      Follows words (.value option value) ∧ c = ofWords (words ++ [.value option value]) := by
  rw [ofWords_value]
  generalize ofWords words = before
  cases option with
  | format =>
    simp only [Follows, ← Format.parse?_eq_some_iff, setValue]
    cases Format.parse? value <;> simp [eq_comm]
  | graph =>
    simp only [Follows, ← GraphKind.parse?_eq_some_iff, setValue]
    cases GraphKind.parse? value <;> simp [eq_comm]
  | prune | output | config | fromJson => simp [Follows, setValue, eq_comm]

theorem addOne_ofWords {words : List Word} {word : Word} {c : CommandLine} :
    addOne (ofWords words) word = .ok c ↔ Follows words word ∧ c = ofWords (words ++ [word]) := by
  cases word with
  | logging => simp [addOne, Follows, ofWords_logging, eq_comm]
  | switch option ignored => simp [addOne, Follows, ofWords_switch, eq_comm]
  | value option value => exact setValue_ofWords
  | path path =>
    have last : (ofWords words).projectPath = (pathsOf words).getLast?.getD [] := rfl
    rw [ofWords_path, addOne, Follows, ← last]
    by_cases empty : (ofWords words).projectPath = []
    · simp only [empty, List.isEmpty_nil, ↓reduceIte, Except.ok.injEq, true_and]
      exact eq_comm
    · simp [empty]

/-- All paths are empty just if those before the last one and the last one are. -/
theorem forall_mem_eq_nil_iff {paths : List Bytes} :
    (∀ path ∈ paths, path = []) ↔
      (∀ path ∈ paths.dropLast, path = []) ∧ paths.getLast?.getD [] = [] := by
  induction paths using List.reverseRecOn with
  | nil => simp
  | append_singleton paths path ih => simp [or_imp, forall_and]

theorem takable_concat {words : List Word} {word : Word} :
    Takable (words ++ [word]) ↔ Takable words ∧ Follows words word := by
  simp only [takable_iff, valuesOf_concat, pathsOf_concat]
  cases word with
  | logging => simp only [List.append_nil, Follows, and_true]
  | switch option ignored => simp only [List.append_nil, Follows, and_true]
  | value option value =>
    cases option <;>
      simp only [reduceCtorEq, ↓reduceIte, List.append_nil, List.forall_mem_append,
        List.forall_mem_singleton, Follows, and_true]
    · exact and_right_comm
    · rw [and_assoc, and_assoc, and_assoc, and_comm (a := ∃ graph, _)]
  | path path =>
    rw [List.append_nil, List.append_nil, List.dropLast_concat, forall_mem_eq_nil_iff, Follows]
    tauto

theorem foldlM_addOne {words : List Word} {c : CommandLine} :
    words.foldlM addOne {} = .ok c ↔ Takable words ∧ c = ofWords words := by
  induction words using List.reverseRecOn generalizing c with
  | nil =>
    have start : Takable [] := ⟨by simp [valuesOf], by simp [valuesOf], by simp [pathsOf]⟩
    have empty : ofWords [] = {} := rfl
    simp [start, empty, pure, Except.pure, eq_comm]
  | append_singleton words word ih =>
    rw [List.foldlM_append, takable_concat]
    constructor
    · intro h
      obtain ⟨taken, before, h⟩ := bind_eq_ok h
      obtain ⟨takable, rfl⟩ := ih.mp before
      obtain ⟨next, added, h⟩ := bind_eq_ok h
      obtain rfl := Except.ok.inj h
      obtain ⟨follows, rfl⟩ := addOne_ofWords.mp added
      exact ⟨⟨takable, follows⟩, rfl⟩
    · rintro ⟨⟨takable, follows⟩, rfl⟩
      rw [ih.mpr ⟨takable, rfl⟩]
      have added := addOne_ofWords.mpr ⟨follows, rfl⟩
      simp [added, bind, Except.bind, pure, Except.pure]

theorem check_eq_ok_iff {c c' : CommandLine} :
    c.check = .ok c' ↔
      (c.help ∨ c.version ∨ ¬ (c.projectPath = [] ↔ c.fromJson = [])) ∧ c = c' := by
  unfold check
  simp only [Bool.or_eq_true, Bool.and_eq_true, Bool.not_eq_true', List.isEmpty_iff,
    List.isEmpty_eq_false_iff]
  split
  · grind
  split
  · grind
  split
  · grind
  · grind

/-- A command line is accepted just if its arguments spell words that make one up, and it asks for
what they say: in every field for what the last word about it gives. Such words are logging options,
which say nothing here, flags, options with a value in the same argument or in the next one,
whatever that is, and paths. A flag with a long name may have a value behind it that is ignored. -/
theorem arguments_accepted_iff (arguments : List Bytes) (c : CommandLine) :
    parse arguments = .ok c ↔
      ∃ words, Spells words arguments ∧ Admissible words ∧ c = ofWords words := by
  constructor
  · intro h
    obtain ⟨read, taken, checked⟩ := bind_eq_ok h
    obtain ⟨words, spelled⟩ := exists_spells taken
    rw [spelled.addAll_eq] at taken
    obtain ⟨takable, rfl⟩ := foldlM_addOne.mp taken
    obtain ⟨input, same⟩ := check_eq_ok_iff.mp checked
    exact ⟨words, spelled, ⟨takable, by simpa [ofWords] using input⟩, same.symm⟩
  · rintro ⟨words, spelled, admissible, rfl⟩
    have taken := foldlM_addOne.mpr ⟨admissible.toTakable, rfl⟩
    rw [← spelled.addAll_eq] at taken
    have checked : (ofWords words).check = .ok (ofWords words) := by
      refine check_eq_ok_iff.mpr ⟨?_, rfl⟩
      simpa [ofWords] using admissible.input
    rw [parse, taken]
    exact checked

/-- A flag with a value behind it is read as this flag in every spelling. -/
theorem Spells.of_ignored {words : List Word} {argument name ignored : Bytes}
    {arguments : List Bytes} {option : SwitchOption} (h : Spells words (argument :: arguments))
    (split : splitValue argument = (name, some ignored)) (named : name ∈ option.names) :
    .switch option (some ignored) ∈ words := by
  have isSwitch := SwitchOption.ofName?_eq_some_iff.mpr named
  cases h with
  | logging logging _ =>
    have unnamed := logging.unnamed.1
    rw [split, isSwitch] at unnamed
    cases unnamed
  | switch named' _ =>
    rw [splitValue_of_not_mem (SwitchOption.of_mem_names named').1] at split
    cases split
  | switchIgnoring ignored' named' long _ =>
    rw [splitValue_append ignored' long (SwitchOption.of_mem_names named').1] at split
    cases split
    rw [SwitchOption.ofName?_eq_some_iff.mpr named'] at isSwitch
    cases isSwitch
    exact List.mem_cons_self
  | inline value named' long _ =>
    rw [splitValue_append value long (ValueOption.of_mem_names named').1] at split
    cases split
    have noValue := (SwitchOption.of_mem_names named).2.2
    rw [ValueOption.ofName?_eq_some_iff.mpr named'] at noValue
    cases noValue
  | apart value named' _ =>
    rw [splitValue_of_not_mem (ValueOption.of_mem_names named').1] at split
    cases split
  | path isPath _ =>
    rw [splitValue_of_isPath isPath] at split
    cases split

/-- A flag with the opposite of what it says behind it. -/
def valuedFlag : List Bytes := [text "--internal-only=false", text "proj"]

/-- The flag turns on what the value behind it means to turn off, and these arguments are spelled by
no words whose flags stand alone. -/
theorem valuedFlag_accepted :
    parse valuedFlag = .ok { projectPath := text "proj", internalOnly := some true } ∧
      ¬ ∃ words, Spells words valuedFlag ∧
        ∀ option ignored, .switch option (some ignored) ∉ words := by
  refine ⟨by decide, ?_⟩
  rintro ⟨words, spelled, alone⟩
  have split : splitValue (text "--internal-only=false") =
      (text "--internal-only", some (text "false")) := by decide
  exact alone .internalOnly (text "false") (spelled.of_ignored split (by decide))

end CommandLine
end CallAtlas
