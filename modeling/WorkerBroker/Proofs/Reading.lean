import WorkerBroker.Http.Info
import WorkerBroker.Proofs.Sections
/-!
# Reading command lines

A worker cuts a line into its words and finds out from them which command it is. `Command.ofWords?`
is such a worker: it looks at the first words for the kind of the command, and reads the ports,
numbers and names behind them. Several kinds begin with the same word (`patch reset` and `patch`,
`add` and `port add`, `stop` and `component stop`), so more than one word may be needed.

The names of components and applications and the options of a launch are free texts, and may be
called like a keyword. That does no harm, because they stand where no keyword is looked for; with one
exception, the separator in the first section of a launch (`Command.IsReadable`). Whatever else a
command holds, the worker gets back from the line what was meant, so two commands with one line are
the same (`Command.line_unambiguous`).
-/

namespace WorkerBroker

/-! ## Numbers and ports -/

/-- A number reads back from its decimal text. -/
theorem readNat_decimal (n : Nat) : readNat (decimal n).toList = some n := by
  rw [toList_decimal, readNat.eq_def]
  split
  · rename_i cs hcs
    -- no digit is a sign
    have hsign : Char.isDigit '+' :=
      Nat.isDigit_of_mem_toDigits (b := 10) (n := n) (by omega) (by omega)
        (hcs ▸ List.mem_cons_self)
    exact absurd hsign (by decide)
  · exact readDigits_toDigits n

theorem readU32_decimal (n : UInt32) : readU32 (decimal n.toNat) = some n := by
  rw [readU32, readNat_decimal, Option.bind_some, if_pos n.toNat_lt_size, UInt32.ofNat_toNat]

/-- A number below a bound. -/
def readBelow (bound : Nat) (s : String) : Option Nat :=
  (readNat s.toList).filter (· < bound)

theorem readBelow_decimal {bound n : Nat} (h : n < bound) :
    readBelow bound (decimal n) = some n := by
  rw [readBelow, readNat_decimal, Option.filter_some, if_pos (decide_eq_true h)]

/-- A number of at most 16 bits. -/
def readU16 (s : String) : Option UInt16 :=
  (readBelow UInt16.size s).map UInt16.ofNat

theorem readU16_decimal (n : UInt16) : readU16 (decimal n.toNat) = some n := by
  rw [readU16, readBelow_decimal n.toNat_lt_size, Option.map_some, UInt16.ofNat_toNat]

/-- A number of at most 8 bits. -/
def readU8 (s : String) : Option UInt8 :=
  (readBelow UInt8.size s).map UInt8.ofNat

theorem readU8_decimal (n : UInt8) : readU8 (decimal n.toNat) = some n := by
  rw [readU8, readBelow_decimal n.toNat_lt_size, Option.map_some, UInt8.ofNat_toNat]

/-- What stands in front of a colon ends at the first one. -/
theorem Port.splitAtColon_append {xs ys : List Char} (h : ':' ∉ xs) :
    splitAtColon (xs ++ ':' :: ys) = some (xs, ys) := by
  have hxs : ∀ x ∈ xs, x != ':' := fun x hx => bne_iff_ne.2 fun hcolon => h (hcolon ▸ hx)
  rw [splitAtColon, List.dropWhile_append_of_pos hxs, List.takeWhile_append_of_pos hxs]
  simp

/-- A type and an index name a port if the index has 32 bits. Otherwise no port has that name. -/
theorem Port.ofText?_portName (type : PortType) (index : Nat) :
    ofText? (portName type index) =
      if index < UInt32.size then some ⟨type, .ofNat index⟩ else none := by
  have hname : ':' ∉ type.name.toList := by cases type <;> decide
  have htext : (portName type index).toList =
      type.name.toList ++ ':' :: (decimal index).toList := by
    simp [portName]
  have hindex : readU32 (decimal index) =
      if index < UInt32.size then some (.ofNat index) else none := by
    rw [readU32, readNat_decimal, Option.bind_some]
  rw [ofText?, htext, splitAtColon_append hname]
  simp only [String.ofList_toList, Option.bind_eq_bind, Option.bind_some, PortType.ofName?_name,
    hindex]
  split <;> rfl

theorem Port.ofText?_text (p : Port) : ofText? p.text = some p := by
  have h := ofText?_portName p.type p.index.toNat
  rwa [if_pos p.index.toNat_lt_size, UInt32.ofNat_toNat] at h

theorem MacAddress.ofText?_text (m : MacAddress) : ofText? m.text = some m :=
  dif_pos m.isMac

/-! ## Names -/

theorem Direction.ofName?_name (d : Direction) : ofName? d.name = some d := by
  cases d <;> decide

/-- The component kind of that name, whatever worker may run it. -/
def ComponentKind.ofWord? (s : String) : Option ComponentKind :=
  [forward, merge, classifier, mirror].find? fun kind => kind.name = s

theorem ComponentKind.ofWord?_name (kind : ComponentKind) : ofWord? kind.name = some kind := by
  cases kind <;> decide

/-- The table action of that name. -/
def TableAction.ofName? (s : String) : Option TableAction :=
  [add, del].find? fun action => action.name = s

theorem TableAction.ofName?_name (action : TableAction) : ofName? action.name = some action := by
  cases action <;> decide

/-! ## Commands -/

namespace Command

/-- The tag operation of the words at the end of a line. -/
def tagOfWords? : List String → Option VlanTag
  | [] => some .keep
  | ["add_vlantag", id, priority] => do return .add (← readU16 id) (← readU8 priority)
  | ["del_vlantag"] => some .remove
  | _ => none

/-- The table entry of the words at the end of a line. -/
def entryOfWords? : List String → Option TableEntry
  | ["mac", mac, port] => do return ⟨none, ← MacAddress.ofText? mac, ← Port.ofText? port⟩
  | ["vlan", vlan, mac, port] => do
    return ⟨some (← readU16 vlan), ← MacAddress.ofText? mac, ← Port.ofText? port⟩
  | _ => none

/-- The command of the words of a line. -/
def ofWords? : List String → Option Command
  | ["_get_client_id"] => some identify
  | ["status"] => some status
  | ["clear"] => some clear
  | ["forward"] => some forward
  | ["stop"] => some stop
  | ["start"] => some start
  | ["exit"] => some exit
  | ["add", port] => do return addPort (← Port.ofText? port)
  | ["del", port] => do return delPort (← Port.ofText? port)
  | ["patch", "reset"] => some resetPatches
  | ["patch", src, dst] => do return patch (← Port.ofText? src) (← Port.ofText? dst)
  | "launch" :: id :: app :: sections => do
    let (eal, options) := cutAtFirst Launch.separator sections
    return launch ⟨← readU32 id, app, eal, options⟩
  | ["component", "start", name, core, kind] => do
    return startComponent name (← readU32 core) (← ComponentKind.ofWord? kind)
  | ["component", "stop", name] => some (stopComponent name)
  | "port" :: "add" :: port :: direction :: component :: tag => do
    return attachPort (← Port.ofText? port) (← Direction.ofName? direction) component
      (← tagOfWords? tag)
  | ["port", "del", port, direction, component] => do
    return detachPort (← Port.ofText? port) (← Direction.ofName? direction) component
  | "classifier_table" :: action :: entry => do
    return classifierTable (← TableAction.ofName? action) (← entryOfWords? entry)
  | _ => none

/-- The command of a line. -/
def ofLine? (line : String) : Option Command :=
  ofWords? (words line)

/-- The free texts of a command are tokens, and none in the first section of a launch is the
separator. -/
structure IsReadable (c : Command) : Prop where
  texts : ∀ t ∈ c.texts, isToken t
  eal : ∀ l, c = launch l → Launch.separator ∉ l.eal

theorem tagOfWords?_tagFields (tag : VlanTag) : tagOfWords? (tagFields tag) = some tag := by
  cases tag with
  | keep | remove => rfl
  | add id priority => simp [tagFields, tagOfWords?, readU16_decimal, readU8_decimal]

theorem entryOfWords?_entryFields (e : TableEntry) : entryOfWords? (entryFields e) = some e := by
  obtain ⟨vlan, mac, port⟩ := e
  cases vlan with
  | none => simp [entryFields, entryOfWords?, MacAddress.ofText?_text, Port.ofText?_text]
  | some vlan =>
    simp [entryFields, entryOfWords?, readU16_decimal, MacAddress.ofText?_text, Port.ofText?_text]

variable {c : Command}

/-- A readable command is found out from its tokens. -/
theorem ofWords?_tokens (h : c.IsReadable) : ofWords? c.tokens = some c := by
  cases c with
  | identify | status | clear | resetPatches | forward | stop | start | exit | stopComponent => rfl
  | addPort port | delPort port => simp [tokens, fields, ofWords?, Port.ofText?_text]
  | patch src dst => simp [tokens, fields, ofWords?, Port.ofText?_text]
  | launch l =>
    have hcut : cutAtFirst Launch.separator (l.eal ++ "--" :: l.options) = (l.eal, l.options) :=
      cutAtFirst_append (h.eal l rfl)
    simp [tokens, ofWords?, hcut, readU32_decimal]
  | startComponent name core kind =>
    simp [tokens, fields, ofWords?, readU32_decimal, ComponentKind.ofWord?_name]
  | attachPort port direction component tag =>
    simp [tokens, fields, ofWords?, Port.ofText?_text, Direction.ofName?_name,
      tagOfWords?_tagFields]
  | detachPort port direction component =>
    simp [tokens, fields, ofWords?, Port.ofText?_text, Direction.ofName?_name]
  | classifierTable action entry =>
    simp [tokens, fields, ofWords?, TableAction.ofName?_name, entryOfWords?_entryFields]

/-- A readable command is found out from its line. -/
theorem ofLine?_line (h : c.IsReadable) : ofLine? c.line = some c := by
  rw [ofLine?, words_line (isToken_of_texts h.texts), ofWords?_tokens h]

/-- Lines are unambiguous: a worker that cuts the line of a readable command at its spaces finds out
the command with everything that it holds, so no two such commands have the same line. -/
theorem line_unambiguous :
    (∀ c : Command, c.IsReadable → ofLine? c.line = some c) ∧
      ∀ c c' : Command, c.IsReadable → c'.IsReadable → c.line = c'.line → c = c' := by
  refine ⟨fun c h => ofLine?_line h, fun c c' h h' hline => ?_⟩
  have hread : some c = some c' := by rw [← ofLine?_line h, hline, ofLine?_line h']
  exact Option.some.inj hread

/-- An application that is called like the separator and has an option that is, and a component that
is called like the keyword behind it. -/
theorem line_unambiguous_with_keywords :
    ofLine? "launch 7 --  -- -- reset" = some (launch ⟨7, "--", [], ["--", "reset"]⟩) ∧
      ofLine? "port add phy:0 rx add_vlantag add_vlantag 5 3" =
        some (attachPort ⟨.phy, 0⟩ .rx "add_vlantag" (.add 5 3)) := by
  have hlaunch : (launch ⟨7, "--", [], ["--", "reset"]⟩).IsReadable :=
    ⟨by decide, by rintro l ⟨⟩; exact nofun⟩
  have hattach : (attachPort ⟨.phy, 0⟩ .rx "add_vlantag" (.add 5 3)).IsReadable :=
    ⟨by decide, nofun⟩
  have hlines : (launch ⟨7, "--", [], ["--", "reset"]⟩).line = "launch 7 --  -- -- reset" ∧
      (attachPort ⟨.phy, 0⟩ .rx "add_vlantag" (.add 5 3)).line =
        "port add phy:0 rx add_vlantag add_vlantag 5 3" := by
    decide +kernel
  rw [← hlines.1, ← hlines.2]
  exact ⟨line_unambiguous.1 _ hlaunch, line_unambiguous.1 _ hattach⟩

end Command

end WorkerBroker
