import TreeFigure.Command.Arguments
import TreeFigure.Proofs.Text.Runs

/-!
How a command line is read, by rule. `Spells` says which operands and options the words of a command
line are, in any order and spelling, without saying how they are read. A command line that is
understood spells some items, and the arguments hold what these items say.
-/

namespace TreeFigure.Command

/-- What a part of a command line says. -/
inductive Item where
  | operand (value : String)
  | switch (switch : Switch)
  | option (slot : Slot) (value : String)
  deriving DecidableEq, Repr

def Item.operand? : Item → Option String
  | .operand value => some value
  | _ => none

/-- The operands in their order. -/
def operands (items : List Item) : List String :=
  items.filterMap Item.operand?

/-- Short options behind one dash. The last of them may have its value in the same word, or await
it. -/
inductive SpellsShort : List Char → List Item → Option Slot → Prop
  | done : SpellsShort [] [] none
  | switch {c : Char} {rest : List Char} {switch : Switch} {said : List Item}
      {awaiting : Option Slot} (hflag : Flag.ofShort? c = some (.switch switch))
      (tail : SpellsShort rest said awaiting) :
      SpellsShort (c :: rest) (.switch switch :: said) awaiting
  | awaiting {c : Char} {slot : Slot} (hflag : Flag.ofShort? c = some (.slot slot)) :
      SpellsShort [c] [] (some slot)
  | equals {c : Char} {value : List Char} {slot : Slot}
      (hflag : Flag.ofShort? c = some (.slot slot)) :
      SpellsShort (c :: '=' :: value) [.option slot (String.ofList value)] none
  | attached {c : Char} {value : List Char} {slot : Slot}
      (hflag : Flag.ofShort? c = some (.slot slot)) (hvalue : value ≠ [])
      (hequals : value.head? ≠ some '=') :
      SpellsShort (c :: value) [.option slot (String.ofList value)] none

/-- A word of options, which may await a value. -/
inductive SpellsWord : List Char → List Item → Option Slot → Prop
  | switch {name : List Char} {switch : Switch}
      (hflag : Flag.ofLong? name = some (.switch switch)) :
      SpellsWord ('-' :: '-' :: name) [.switch switch] none
  | awaiting {name : List Char} {slot : Slot} (hflag : Flag.ofLong? name = some (.slot slot)) :
      SpellsWord ('-' :: '-' :: name) [] (some slot)
  | equals {name value : List Char} {slot : Slot}
      (hflag : Flag.ofLong? name = some (.slot slot)) :
      SpellsWord ('-' :: '-' :: (name ++ '=' :: value)) [.option slot (String.ofList value)] none
  | short {c : Char} {rest : List Char} {said : List Item} {awaiting : Option Slot} (hc : c ≠ '-')
      (hshort : SpellsShort (c :: rest) said awaiting) : SpellsWord ('-' :: c :: rest) said awaiting

/-- The word is no option. A dash alone is none. -/
def IsPlain (word : String) : Prop :=
  word.toList.head? = some '-' → word = "-"

theorem isPlain_of_forall_ne {word : String}
    (h : ∀ c rest, word.toList ≠ '-' :: c :: rest) : IsPlain word := by
  intro hhead
  obtain ⟨tail, htail⟩ := List.head?_eq_some_iff.mp hhead
  cases tail with
  | nil => exact String.toList_inj.mp htail
  | cons c rest => exact absurd htail (h c rest)

/-- The words spell these items. If an option awaits its value, the first word is that value. -/
inductive Spells : Option Slot → List String → List Item → Prop
  | done : Spells none [] []
  | dashes (words : List String) : Spells none ("--" :: words) (words.map .operand)
  | operand {word : String} {words : List String} {items : List Item} (hword : IsPlain word)
      (tail : Spells none words items) : Spells none (word :: words) (.operand word :: items)
  | value {slot : Slot} {word : String} {words : List String} {items : List Item}
      (hword : IsPlain word) (tail : Spells none words items) :
      Spells (some slot) (word :: words) (.option slot word :: items)
  | options {word : String} {words : List String} {said items : List Item}
      {awaiting : Option Slot} (hword : SpellsWord word.toList said awaiting)
      (tail : Spells awaiting words items) : Spells none (word :: words) (said ++ items)

/-- The arguments hold what the items say. The first operand is the tree file and the second one is
the line. -/
structure Holds (items : List Item) (arguments : Arguments) : Prop where
  treeFile : arguments.treeFile = (operands items)[0]?
  line : arguments.line = (operands items)[1]?.bind fun word => Text.natural? word.toList
  few : (operands items).length ≤ 2
  output : ∀ value, arguments.output = some value ↔ .option .output value ∈ items
  completion : ∀ value, arguments.completion.map Shell.name = some value ↔
    .option .completion value ∈ items
  printTree : arguments.printTree = true ↔ .switch .printTree ∈ items
  showConfig : arguments.showConfig = true ↔ .switch .showConfig ∈ items
  verbose : arguments.verbose =
    min (items.count (.switch .verbose)) Arguments.verbosityLimit

/-- The arguments say this item besides what they said before. -/
structure Adds (item : Item) (arguments next : Arguments) : Prop where
  output : ∀ value, next.output = some value ↔
    arguments.output = some value ∨ .option .output value = item
  completion : ∀ value, next.completion.map Shell.name = some value ↔
    arguments.completion.map Shell.name = some value ∨ .option .completion value = item
  printTree : next.printTree = true ↔ arguments.printTree = true ∨ .switch .printTree = item
  showConfig : next.showConfig = true ↔ arguments.showConfig = true ∨ .switch .showConfig = item
  verbose : next.verbose =
    min (arguments.verbose + [item].count (.switch .verbose)) Arguments.verbosityLimit

/-- The slots of the options. -/
def Slot.IsOption (slot : Slot) : Prop :=
  slot = .output ∨ slot = .completion

section Flags

theorem isOption_of_ofLong? {name : List Char} {slot : Slot}
    (h : Flag.ofLong? name = some (.slot slot)) : slot.IsOption := by
  obtain ⟨before, after, htable, -⟩ := List.lookup_eq_some_iff.mp h
  have hmem : (String.ofList name, Flag.slot slot) ∈
      before ++ (String.ofList name, .slot slot) :: after := by simp
  rw [← htable] at hmem
  have hnamed : String.ofList name = "output" ∧ slot = .output ∨
      String.ofList name = "completion" ∧ slot = .completion := by simpa using hmem
  exact hnamed.imp And.right And.right

theorem isOption_of_ofShort? {c : Char} {slot : Slot} (h : Flag.ofShort? c = some (.slot slot)) :
    slot.IsOption := by
  unfold Flag.ofShort? at h
  split at h
  case h_1 =>
    obtain rfl := Flag.slot.inj (Option.some.inj h)
    exact .inl rfl
  all_goals cases h

end Flags

section Holds

theorem bind_eq_ok {ε α β : Type} {x : Except ε α} {f : α → Except ε β} {b : β}
    (h : (x >>= f) = .ok b) : ∃ a, x = .ok a ∧ f a = .ok b := by
  cases x with
  | error e => cases h
  | ok a => exact ⟨a, rfl, h⟩

variable {items : List Item} {arguments next : Arguments} {value : String}

theorem operands_operand (items : List Item) (value : String) :
    operands (items ++ [.operand value]) = operands items ++ [value] :=
  List.filterMap_append

theorem operands_concat {item : Item} (h : item.operand? = none) (items : List Item) :
    operands (items ++ [item]) = operands items := by
  rw [operands, List.filterMap_append, List.filterMap_cons_none h, List.filterMap_nil,
    List.append_nil, operands]

theorem name_of_ofName? {name : String} {shell : Shell} (h : Shell.ofName? name = some shell) :
    shell.name = name := by
  simpa using List.find?_some h

theorem adds_operand {treeFile : Option String} {line : Option Nat}
    (hlimit : arguments.verbose ≤ Arguments.verbosityLimit) :
    Adds (.operand value) arguments { arguments with treeFile, line } :=
  ⟨by simp, by simp, by simp, by simp, (Nat.min_eq_left hlimit).symm⟩

theorem holds_nil : Holds [] {} where
  treeFile := rfl
  line := rfl
  few := Nat.zero_le 2
  output := by simp
  completion := by simp
  printTree := by simp
  showConfig := by simp
  verbose := rfl

theorem Holds.verbose_le (h : Holds items arguments) :
    arguments.verbose ≤ Arguments.verbosityLimit := by
  rw [h.verbose]
  exact Nat.min_le_right _ _

theorem Holds.append {item : Item} (h : Holds items arguments) (hadds : Adds item arguments next)
    (htree : next.treeFile = (operands (items ++ [item]))[0]?)
    (hline : next.line =
      (operands (items ++ [item]))[1]?.bind fun word => Text.natural? word.toList)
    (hfew : (operands (items ++ [item])).length ≤ 2) : Holds (items ++ [item]) next where
  treeFile := htree
  line := hline
  few := hfew
  output value := by rw [hadds.output, h.output, List.mem_append, List.mem_singleton]
  completion value := by rw [hadds.completion, h.completion, List.mem_append, List.mem_singleton]
  printTree := by rw [hadds.printTree, h.printTree, List.mem_append, List.mem_singleton]
  showConfig := by rw [hadds.showConfig, h.showConfig, List.mem_append, List.mem_singleton]
  verbose := by
    rw [hadds.verbose, h.verbose, List.count_append]
    omega

/-- An option or a switch leaves the positional arguments as they are. -/
theorem Holds.append_of_operand?_eq_none {item : Item} (h : Holds items arguments)
    (hitem : item.operand? = none) (hadds : Adds item arguments next)
    (htree : next.treeFile = arguments.treeFile) (hline : next.line = arguments.line) :
    Holds (items ++ [item]) next := by
  have hoperands := operands_concat hitem items
  refine h.append hadds ?_ ?_ ?_
  · rw [htree, hoperands, h.treeFile]
  · rw [hline, hoperands, h.line]
  · rw [hoperands]
    exact h.few

theorem Holds.turnOn {switch : Switch} (h : Holds items arguments)
    (hnext : arguments.turnOn switch = .ok next) : Holds (items ++ [.switch switch]) next := by
  have hlimit := (Nat.min_eq_left h.verbose_le).symm
  unfold Arguments.turnOn at hnext
  split at hnext
  case h_1 | h_2 =>
    split at hnext
    case isTrue => cases hnext
    case isFalse =>
      obtain rfl := Except.ok.inj hnext
      refine h.append_of_operand?_eq_none rfl ?_ rfl rfl
      exact ⟨by simp, by simp, by simp, by simp, hlimit⟩
  case h_3 =>
    obtain rfl := Except.ok.inj hnext
    refine h.append_of_operand?_eq_none rfl ?_ rfl rfl
    exact ⟨by simp, by simp, by simp, by simp, rfl⟩
  case h_4 | h_5 => cases hnext

theorem path?_eq_ok {path : String} (h : Arguments.path? value = .ok path) : path = value := by
  unfold Arguments.path? at h
  split at h
  case isTrue => cases h
  case isFalse => exact (Except.ok.inj h).symm

/-- An option has its value only once. -/
theorem Holds.option {slot : Slot} (h : Holds items arguments) (hslot : slot.IsOption)
    (hnext : arguments.fill value slot = .ok next) :
    Holds (items ++ [.option slot value]) next := by
  have hlimit := (Nat.min_eq_left h.verbose_le).symm
  rcases hslot with rfl | rfl
  · simp only [Arguments.fill] at hnext
    split at hnext
    case isTrue => cases hnext
    case isFalse hunset =>
      obtain ⟨path, hpath, heq⟩ := bind_eq_ok hnext
      obtain rfl := path?_eq_ok hpath
      obtain rfl := Except.ok.inj heq
      have hnone : arguments.output = none := by simpa using hunset
      refine h.append_of_operand?_eq_none rfl ?_ rfl rfl
      exact ⟨by simp [hnone, eq_comm], by simp, by simp, by simp, hlimit⟩
  · simp only [Arguments.fill] at hnext
    split at hnext
    case isTrue => cases hnext
    case isFalse hunset =>
      split at hnext
      case h_1 shell hshell =>
        obtain rfl := Except.ok.inj hnext
        obtain rfl := name_of_ofName? hshell
        have hnone : arguments.completion = none := by simpa using hunset
        refine h.append_of_operand?_eq_none rfl ?_ rfl rfl
        exact ⟨by simp, by simp [hnone, eq_comm], by simp, by simp, hlimit⟩
      case h_2 => cases hnext

/-- The first operand is the tree file. -/
theorem Holds.treeFile_operand (h : Holds items arguments) (hnone : (operands items).length = 0)
    (hnext : arguments.fill value .treeFile = .ok next) :
    Holds (items ++ [.operand value]) next := by
  obtain ⟨path, hpath, heq⟩ := bind_eq_ok hnext
  obtain rfl := path?_eq_ok hpath
  obtain rfl := Except.ok.inj heq
  have hempty := List.eq_nil_of_length_eq_zero hnone
  have hoperands : operands (items ++ [.operand path]) = [path] := by
    rw [operands_operand, hempty, List.nil_append]
  refine h.append (adds_operand h.verbose_le) ?_ ?_ ?_
  · rw [hoperands]
    rfl
  · rw [hoperands]
    exact h.line.trans (by rw [hempty]; rfl)
  · rw [hoperands]
    exact Nat.le_succ 1

/-- The second operand is the line. -/
theorem Holds.line_operand (h : Holds items arguments) (hone : (operands items).length = 1)
    (hnext : arguments.fill value .line = .ok next) :
    Holds (items ++ [.operand value]) next := by
  obtain ⟨path, hpath⟩ := List.length_eq_one_iff.mp hone
  have hoperands : operands (items ++ [.operand value]) = [path, value] := by
    rw [operands_operand, hpath, List.singleton_append]
  unfold Arguments.fill at hnext
  dsimp only at hnext
  split at hnext
  case h_1 index hindex =>
    obtain rfl := Except.ok.inj hnext
    refine h.append (adds_operand h.verbose_le) ?_ ?_ ?_
    · rw [hoperands]
      exact h.treeFile.trans (by rw [hpath]; rfl)
    · rw [hoperands]
      exact hindex.symm
    · rw [hoperands]
      exact Nat.le_refl 2
  case h_2 => cases hnext

end Holds

/-- The option that waits for its value. -/
def Pending.awaiting? : Pending → Option Slot
  | .waiting slot => some slot
  | _ => none

namespace Scan

/-- What is found once a value that has not been checked is checked. -/
def resolved (scan : Scan) : Except Stop Arguments :=
  match scan.pending with
  | .value slot value => scan.found.fill value slot
  | _ => .ok scan.found

/-- The scan has read words that spell these items. An option may await its value, and two dashes
may stand among the words. -/
structure Told (scan : Scan) (items : List Item) (awaiting : Option Slot) (only : Bool) :
    Prop where
  holds : ∀ found, scan.resolved = .ok found → Holds items found
  count : scan.positionals = (operands items).length
  awaits : scan.pending.awaiting? = awaiting
  optional : ∀ slot ∈ awaiting, slot.IsOption
  only_eq : scan.onlyPositionals = only

section Step

variable {scan next : Scan} {items : List Item} {awaiting : Option Slot} {only : Bool}

theorem told_start : Told {} [] none false where
  holds found h := by
    obtain rfl := Except.ok.inj h
    exact holds_nil
  count := rfl
  awaits := rfl
  optional := by simp
  only_eq := rfl

/-- What is pending can be checked if no option waits. -/
theorem settle_eq_ok (h : scan.settle = .ok next) :
    scan.pending.awaiting? = none ∧
      ∃ found, scan.resolved = .ok found ∧ next = { scan with found, pending := .nothing } := by
  unfold settle at h
  unfold resolved
  split at h
  case h_1 hpending =>
    obtain rfl := Except.ok.inj h
    rw [hpending]
    refine ⟨rfl, scan.found, rfl, ?_⟩
    rw [← hpending]
  case h_2 => cases h
  case h_3 slot value hpending =>
    obtain ⟨found, hfound, heq⟩ := bind_eq_ok h
    obtain rfl := Except.ok.inj heq
    rw [hpending]
    exact ⟨rfl, found, hfound, rfl⟩

theorem Told.settle (h : Told scan items awaiting only) (hnext : scan.settle = .ok next) :
    awaiting = none ∧ next.pending = .nothing ∧ Holds items next.found ∧
      Told next items none only := by
  obtain ⟨hready, found, hfound, rfl⟩ := settle_eq_ok hnext
  have hholds := h.holds found hfound
  refine ⟨h.awaits.symm.trans hready, rfl, hholds, ?_, h.count, rfl, by simp, h.only_eq⟩
  intro other hother
  obtain rfl := Except.ok.inj hother
  exact hholds

/-- Nothing is pending, and a further item that is no operand is found at once. -/
theorem Told.append {item : Item} {found : Arguments} (h : Told scan items awaiting only)
    (hpending : scan.pending = .nothing) (hitem : item.operand? = none)
    (hfound : Holds (items ++ [item]) found) :
    Told { scan with found } (items ++ [item]) none only where
  holds other hother := by
    rw [resolved, hpending] at hother
    obtain rfl := Except.ok.inj hother
    exact hfound
  count := by
    rw [operands_concat hitem]
    exact h.count
  awaits := by
    rw [hpending]
    rfl
  optional := by simp
  only_eq := h.only_eq

theorem Told.turnOn {switch : Switch} (h : Told scan items awaiting only)
    (hnext : scan.turnOn switch = .ok next) :
    awaiting = none ∧ Told next (items ++ [.switch switch]) none only := by
  obtain ⟨settled, hsettled, hrest⟩ := bind_eq_ok hnext
  obtain ⟨found, hfound, heq⟩ := bind_eq_ok hrest
  obtain rfl := Except.ok.inj heq
  obtain ⟨hready, hpending, hholds, htold⟩ := h.settle hsettled
  exact ⟨hready, htold.append hpending rfl (hholds.turnOn hfound)⟩

theorem Told.attach {slot : Slot} {value : List Char} (h : Told scan items awaiting only)
    (hslot : slot.IsOption) (hnext : scan.attach slot value = .ok next) :
    awaiting = none ∧ Told next (items ++ [.option slot (String.ofList value)]) none only := by
  obtain ⟨settled, hsettled, hrest⟩ := bind_eq_ok hnext
  obtain ⟨found, hfound, heq⟩ := bind_eq_ok hrest
  obtain rfl := Except.ok.inj heq
  obtain ⟨hready, hpending, hholds, htold⟩ := h.settle hsettled
  exact ⟨hready, htold.append hpending rfl (hholds.option hslot hfound)⟩

theorem Told.await {slot : Slot} (h : Told scan items awaiting only) (hslot : slot.IsOption)
    (hnext : scan.await slot = .ok next) : awaiting = none ∧ Told next items (some slot) only := by
  obtain ⟨settled, hsettled, heq⟩ := bind_eq_ok hnext
  obtain rfl := Except.ok.inj heq
  obtain ⟨hready, -, hholds, htold⟩ := h.settle hsettled
  refine ⟨hready, ?_, htold.count, rfl, by simpa using hslot, htold.only_eq⟩
  intro found hfound
  obtain rfl := Except.ok.inj hfound
  exact hholds

/-- The value that an option waits for. -/
theorem Told.supply {slot : Slot} (h : Told scan items awaiting only)
    (hpending : scan.pending = .waiting slot) (word : String) :
    awaiting = some slot ∧
      Told { scan with pending := .value slot word } (items ++ [.option slot word]) none only := by
  have hawaiting : awaiting = some slot := by
    rw [← h.awaits, hpending]
    rfl
  have hholds : Holds items scan.found := h.holds scan.found (by rw [resolved, hpending])
  have hslot : slot.IsOption := h.optional slot (by simp [hawaiting])
  refine ⟨hawaiting, fun found hfound => hholds.option hslot hfound, ?_, rfl, by simp, h.only_eq⟩
  rw [operands_concat rfl]
  exact h.count

/-- The slot of an operand is that of its place. -/
theorem positional_eq_ok {word : String} (h : scan.positional word = .ok next) :
    ∃ slot settled, (scan.positionals = 0 ∧ slot = .treeFile ∨
        scan.positionals = 1 ∧ slot = .line) ∧
      scan.settle = .ok settled ∧
      next = { settled with
        pending := .value slot word
        positionals := scan.positionals + 1 } := by
  unfold Scan.positional at h
  dsimp only [bind, Except.bind] at h
  split at h
  case h_1 hcount =>
    obtain ⟨settled, hsettled, heq⟩ := bind_eq_ok h
    exact ⟨.treeFile, settled, .inl ⟨hcount, rfl⟩, hsettled, (Except.ok.inj heq).symm⟩
  case h_2 hcount =>
    obtain ⟨settled, hsettled, heq⟩ := bind_eq_ok h
    exact ⟨.line, settled, .inr ⟨hcount, rfl⟩, hsettled, (Except.ok.inj heq).symm⟩
  case h_3 => cases h

theorem Told.positional {word : String} (h : Told scan items awaiting only)
    (hnext : scan.positional word = .ok next) :
    awaiting = none ∧ Told next (items ++ [.operand word]) none only := by
  obtain ⟨slot, settled, hslot, hsettled, rfl⟩ := positional_eq_ok hnext
  obtain ⟨hready, -, hholds, htold⟩ := h.settle hsettled
  refine ⟨hready, ?_, ?_, rfl, by simp, htold.only_eq⟩
  · intro found hfound
    rcases hslot with ⟨hcount, rfl⟩ | ⟨hcount, rfl⟩
    · exact hholds.treeFile_operand (h.count.symm.trans hcount) hfound
    · exact hholds.line_operand (h.count.symm.trans hcount) hfound
  · rw [operands_operand, List.length_append, ← h.count]
    rfl

/-- Short options are read one after the other. -/
theorem Told.short {chars : List Char} (h : Told scan items awaiting only)
    (hempty : chars = [] → awaiting = none) (hnext : scan.short chars = .ok next) :
    awaiting = none ∧ ∃ said awaits, SpellsShort chars said awaits ∧
      Told next (items ++ said) awaits only := by
  induction chars generalizing scan items awaiting with
  | nil =>
    obtain rfl := hempty rfl
    obtain rfl := Except.ok.inj hnext
    exact ⟨rfl, [], none, .done, by rwa [List.append_nil]⟩
  | cons c rest ih =>
    unfold Scan.short at hnext
    split at hnext
    case h_1 => cases hnext
    case h_2 switch hflag =>
      split at hnext
      case h_1 => cases hnext
      case h_2 turned hturned =>
        obtain ⟨hready, htold⟩ := h.turnOn hturned
        obtain ⟨-, said, awaits, hsaid, hall⟩ := ih htold (fun _ => rfl) hnext
        rw [List.append_assoc] at hall
        exact ⟨hready, _, awaits, .switch hflag hsaid, hall⟩
    case h_3 slot hflag =>
      have hslot := isOption_of_ofShort? hflag
      split at hnext
      case h_1 =>
        obtain ⟨hready, htold⟩ := h.await hslot hnext
        exact ⟨hready, [], some slot, .awaiting hflag, by rwa [List.append_nil]⟩
      case h_2 value =>
        obtain ⟨hready, htold⟩ := h.attach hslot hnext
        exact ⟨hready, _, none, .equals hflag, htold⟩
      case h_3 hne hequals =>
        obtain ⟨hready, htold⟩ := h.attach hslot hnext
        refine ⟨hready, _, none, .attached hflag hne ?_, htold⟩
        intro hhead
        obtain ⟨tail, htail⟩ := List.head?_eq_some_iff.mp hhead
        exact hequals tail htail

theorem long_equals {name : List Char} (hname : '=' ∉ name) (scan : Scan) (value : List Char) :
    scan.long (name ++ '=' :: value) =
      match Flag.ofLong? name with
      | none => .error .unknownArgument
      | some (.switch _) => .error .tooManyValues
      | some (.slot slot) => scan.attach slot value := by
  have htake : (name ++ '=' :: value).takeWhile (· != '=') = name :=
    Text.takeWhile_run (Text.run_of_notMem hname) (Text.not_begins_ne '=' value)
  have hdrop : (name ++ '=' :: value).drop (name.length + 1) = value := by
    rw [List.drop_length_add_append]
    rfl
  unfold Scan.long
  dsimp only
  rw [if_pos (by simp), htake, hdrop]
  cases Flag.ofLong? name with
  | none => rfl
  | some flag => cases flag <;> rfl

theorem long_bare {name : List Char} (hname : '=' ∉ name) (scan : Scan) :
    scan.long name =
      match Flag.ofLong? name with
      | none => .error .unknownArgument
      | some (.switch switch) => scan.turnOn switch
      | some (.slot slot) => scan.await slot := by
  have htake := Text.takeWhile_run (Text.run_of_notMem hname) Text.not_begins_nil
  rw [List.append_nil] at htake
  unfold Scan.long
  dsimp only
  rw [if_neg (by simpa using hname), htake]
  cases Flag.ofLong? name with
  | none => rfl
  | some flag => cases flag <;> rfl

theorem Told.long {text : List Char} (h : Told scan items awaiting only)
    (hnext : scan.long text = .ok next) :
    awaiting = none ∧ ∃ said awaits, SpellsWord ('-' :: '-' :: text) said awaits ∧
      Told next (items ++ said) awaits only := by
  by_cases hequals : '=' ∈ text
  case pos =>
    obtain ⟨name, value, rfl, hname⟩ := List.eq_append_cons_of_mem hequals
    rw [long_equals hname] at hnext
    split at hnext
    case h_1 | h_2 => cases hnext
    case h_3 slot hflag =>
      obtain ⟨hready, htold⟩ := h.attach (isOption_of_ofLong? hflag) hnext
      exact ⟨hready, _, none, .equals hflag, htold⟩
  case neg =>
    rw [long_bare hequals] at hnext
    split at hnext
    case h_1 => cases hnext
    case h_2 switch hflag =>
      obtain ⟨hready, htold⟩ := h.turnOn hnext
      exact ⟨hready, _, none, .switch hflag, htold⟩
    case h_3 slot hflag =>
      obtain ⟨hready, htold⟩ := h.await (isOption_of_ofLong? hflag) hnext
      exact ⟨hready, [], some slot, .awaiting hflag, by rwa [List.append_nil]⟩

theorem Told.plain {word : String} (h : Told scan items awaiting only)
    (hnext : scan.plain word = .ok next) :
    ∃ item, (∀ words more, IsPlain word → Spells none words more →
        Spells awaiting (word :: words) (item :: more)) ∧
      Told next (items ++ [item]) none only := by
  unfold Scan.plain at hnext
  split at hnext
  case h_1 slot hpending =>
    obtain rfl := Except.ok.inj hnext
    obtain ⟨rfl, htold⟩ := h.supply hpending word
    exact ⟨_, fun _ _ hword htail => .value hword htail, htold⟩
  case h_2 =>
    obtain ⟨rfl, htold⟩ := h.positional hnext
    exact ⟨_, fun _ _ hword htail => .operand hword htail, htold⟩

/-- What one word does to what the scan was told. -/
theorem Told.step {word : String} (h : Told scan items awaiting false)
    (hnext : scan.step word = .ok next) :
    (word = "--" ∧ Told next items awaiting true) ∨
      (∃ item, (∀ words more, Spells none words more →
          Spells awaiting (word :: words) (item :: more)) ∧
        Told next (items ++ [item]) none false) ∨
      (awaiting = none ∧ ∃ said awaits, SpellsWord word.toList said awaits ∧
        Told next (items ++ said) awaits false) := by
  unfold Scan.step at hnext
  rw [h.only_eq, if_neg Bool.false_ne_true] at hnext
  split at hnext
  case h_1 hword =>
    obtain rfl := Except.ok.inj hnext
    refine .inl ⟨String.toList_inj.mp hword, h.holds, h.count, h.awaits, h.optional, rfl⟩
  case h_2 text _ hword =>
    rw [hword]
    exact .inr (.inr (h.long hnext))
  case h_3 hdash hword =>
    rw [hword]
    obtain ⟨hready, said, awaits, hsaid, htold⟩ := h.short (by simp) hnext
    exact .inr (.inr ⟨hready, said, awaits, .short hdash hsaid, htold⟩)
  case h_4 hword =>
    obtain ⟨item, hspells, htold⟩ := h.plain hnext
    have hplain := isPlain_of_forall_ne hword
    exact .inr (.inl ⟨item, fun words more htail => hspells words more hplain htail, htold⟩)

/-- Behind two dashes every word is an operand. -/
theorem Told.run_only {words : List String} {final : Scan} (h : Told scan items awaiting true)
    (hfinal : scan.run words = .ok final) :
    awaiting = none ∧ Holds (items ++ words.map .operand) final.found := by
  induction words generalizing scan items awaiting with
  | nil =>
    obtain ⟨hready, -, hholds, -⟩ := h.settle hfinal
    rw [List.map_nil, List.append_nil]
    exact ⟨hready, hholds⟩
  | cons word words ih =>
    unfold Scan.run at hfinal
    split at hfinal
    case h_1 => cases hfinal
    case h_2 next hnext =>
      unfold Scan.step at hnext
      rw [h.only_eq, if_pos rfl] at hnext
      obtain ⟨hready, htold⟩ := h.positional hnext
      obtain ⟨-, hholds⟩ := ih htold hfinal
      rw [List.append_assoc] at hholds
      exact ⟨hready, hholds⟩

/-- What the words of a whole run spell is what is found. -/
theorem Told.run {words : List String} {final : Scan} (h : Told scan items awaiting false)
    (hfinal : scan.run words = .ok final) :
    ∃ more, Spells awaiting words more ∧ Holds (items ++ more) final.found := by
  induction words generalizing scan items awaiting with
  | nil =>
    obtain ⟨rfl, -, hholds, -⟩ := h.settle hfinal
    exact ⟨[], .done, by rwa [List.append_nil]⟩
  | cons word words ih =>
    unfold Scan.run at hfinal
    split at hfinal
    case h_1 => cases hfinal
    case h_2 next hnext =>
      rcases h.step hnext with ⟨rfl, htold⟩ | ⟨item, hspells, htold⟩ |
        ⟨rfl, said, awaits, hsaid, htold⟩
      · obtain ⟨rfl, hholds⟩ := htold.run_only hfinal
        exact ⟨_, .dashes words, hholds⟩
      · obtain ⟨more, hmore, hholds⟩ := ih htold hfinal
        rw [List.append_assoc] at hholds
        exact ⟨item :: more, hspells words more hmore, hholds⟩
      · obtain ⟨more, hmore, hholds⟩ := ih htold hfinal
        rw [List.append_assoc] at hholds
        exact ⟨said ++ more, .options hsaid hmore, hholds⟩

end Step

end Scan

/-- The requirements of the two positional arguments come to one: what is asked for is there. -/
theorem Arguments.check_eq_ok_iff {arguments found : Arguments} :
    arguments.check = .ok found ↔
      found = arguments ∧ (arguments.completion.isSome = true ∨ arguments.showConfig = true ∨
        ∃ path index, arguments.treeFile = some path ∧ arguments.line = some index) := by
  unfold check isMissing
  cases arguments.completion with
  | some shell => simp [eq_comm (a := found)]
  | none =>
    cases arguments.showConfig with
    | true => simp [eq_comm (a := found)]
    | false =>
      cases arguments.treeFile with
      | none => simp
      | some path =>
        cases arguments.line with
        | none => simp
        | some index => simp [eq_comm (a := found)]

/-- A command line that is understood spells items, and the arguments hold them. -/
theorem exists_spells_of_parse {words : List String} {arguments : Arguments}
    (h : Arguments.parse words = .ok arguments) :
    ∃ items, Spells none words items ∧ Holds items arguments := by
  obtain ⟨final, hfinal, hcheck⟩ := bind_eq_ok h
  obtain ⟨rfl, -⟩ := Arguments.check_eq_ok_iff.mp hcheck
  exact Scan.told_start.run hfinal

/-- A command line that is understood asks for completions, for the settings, or for a line of a
file. -/
theorem asks_of_parse {line : List String} {arguments : Arguments}
    (h : Arguments.parse line = .ok arguments) :
    arguments.completion.isSome = true ∨ arguments.showConfig = true ∨
      ∃ path index, arguments.treeFile = some path ∧ arguments.line = some index := by
  obtain ⟨final, -, hcheck⟩ := bind_eq_ok h
  obtain ⟨rfl, hasked⟩ := Arguments.check_eq_ok_iff.mp hcheck
  exact hasked

end TreeFigure.Command
