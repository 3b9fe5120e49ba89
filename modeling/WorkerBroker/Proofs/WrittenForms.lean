import Mathlib.Computability.RegularExpressions
import WorkerBroker.Proofs.Numerals
import WorkerBroker.Proofs.Reading
/-!
# Texts that name ports and addresses

Two of the texts that requests bring are not passed on as free texts but have a form of their own:
names of ports, and MAC addresses. A port has many names, since its index may have a `+` and zeros
in front, and is written by one of them, which names it again (`Port.read_exactly_written`). A MAC
address is passed on as it was given, so its form has to see to it that it is one token of a line
(`MacAddress.read_exactly_grammar`).

Both forms are about ASCII characters. A digit of another script, a separator too many or a line
feed at the end makes a text that names nothing.
-/

namespace WorkerBroker

/-! ## Ports -/

theorem PortType.ofName?_eq_some_iff {s : String} {t : PortType} :
    ofName? s = some t ↔ t.name = s := by
  constructor
  · intro h
    simpa using List.find?_some h
  · rintro rfl
    exact ofName?_name t

namespace Port

variable {p : Port} {s : String}

/-- A text is cut at its first colon, and only if it has one. -/
theorem splitAtColon_eq_some_iff {cs xs ys : List Char} :
    splitAtColon cs = some (xs, ys) ↔ ':' ∉ xs ∧ cs = xs ++ ':' :: ys := by
  constructor
  · intro h
    have hcs : cs.takeWhile (· != ':') ++ cs.dropWhile (· != ':') = cs :=
      List.takeWhile_append_dropWhile
    rw [splitAtColon] at h
    split at h
    · cases h
    · rename_i c behind hdrop
      cases h
      -- what the first part ends at is a colon
      obtain rfl : c = ':' := by
        have hhead := List.head?_dropWhile_not (· != ':') cs
        rw [hdrop] at hhead
        simpa using hhead
      refine ⟨fun hmem => ?_, ?_⟩
      · simpa using List.mem_takeWhile_imp hmem
      · rw [hdrop] at hcs
        exact hcs.symm
  · rintro ⟨hxs, rfl⟩
    exact splitAtColon_append hxs

/-- The texts that name a port, with its index as a numeral. -/
theorem written_iff :
    p.Written s ↔ ∃ numeral, IsNumeral numeral p.index.toNat ∧
      s.toList = p.type.name.toList ++ ':' :: numeral := by
  constructor
  · rintro ⟨plus, ds, hne, hdigits, hvalue, rfl⟩
    refine ⟨(if plus then ['+'] else []) ++ ds, ⟨_, ds, rfl, ?_, hne, hdigits, hvalue⟩, ?_⟩
    · cases plus
      · exact .inl rfl
      · exact .inr rfl
    · cases plus <;> simp
  · rintro ⟨_, ⟨sign, ds, rfl, hsign, hne, hdigits, hvalue⟩, hs⟩
    refine ⟨decide (sign = ['+']), ds, hne, hdigits, hvalue, ?_⟩
    apply String.toList_injective
    rw [hs]
    rcases hsign with rfl | rfl <;> simp

/-- The texts that are read as a port are those that name it. -/
theorem ofText?_eq_some_iff : ofText? s = some p ↔ p.Written s := by
  simp only [ofText?, Option.bind_eq_bind, Option.bind_eq_some_iff, Option.pure_def,
    Option.some.injEq, Prod.exists, splitAtColon_eq_some_iff, PortType.ofName?_eq_some_iff,
    readU32_eq_some_iff, String.toList_ofList, written_iff]
  constructor
  · rintro ⟨xs, ys, ⟨-, hs⟩, type, htype, index, hindex, rfl⟩
    refine ⟨ys, hindex, ?_⟩
    rw [hs, htype, String.toList_ofList]
  · rintro ⟨numeral, hnumeral, hs⟩
    have hcolon : ':' ∉ p.type.name.toList := by cases p.type <;> decide
    exact ⟨_, numeral, ⟨hcolon, hs⟩, p.type, String.ofList_toList.symm, p.index, hnumeral, rfl⟩

theorem read_eq_ok_iff {key : String} : read key s = .ok p ↔ p.Written s := by
  rw [← ofText?_eq_some_iff, read]
  rcases ofText? s with _ | q <;> simp

/-- A port is named by the text that is written of it. -/
theorem written_text (p : Port) : p.Written p.text :=
  ofText?_eq_some_iff.1 (ofText?_text p)

/-- What is written of the port that a text names. -/
def normal? (s : String) : Option String :=
  (ofText? s).map text

theorem normal?_eq_some_iff {t : String} :
    normal? s = some t ↔ ∃ p : Port, p.Written s ∧ p.text = t := by
  simp [normal?, ofText?_eq_some_iff]

/-- The names of the types. -/
def typeNames : List String := ["phy", "vhost", "ring", "pcap", "nullpmd", "tap"]

theorem mem_typeNames {name : String} : name ∈ typeNames ↔ ∃ type : PortType, type.name = name := by
  constructor
  · have hnames : typeNames = PortType.all.map PortType.name := rfl
    rw [hnames, List.mem_map]
    rintro ⟨type, -, rfl⟩
    exact ⟨type, rfl⟩
  · rintro ⟨type, rfl⟩
    cases type <;> decide

/-- The form of the names of ports: a type, a colon, and a numeral of at most 32 bits. -/
theorem exists_written_iff :
    (∃ p : Port, p.Written s) ↔ ∃ type ∈ typeNames, ∃ numeral n,
      IsNumeral numeral n ∧ n < 2 ^ 32 ∧ s.toList = type.toList ++ ':' :: numeral := by
  simp only [mem_typeNames, written_iff]
  constructor
  · rintro ⟨p, numeral, hnumeral, hs⟩
    exact ⟨_, ⟨p.type, rfl⟩, numeral, _, hnumeral, p.index.toNat_lt, hs⟩
  · rintro ⟨_, ⟨type, rfl⟩, numeral, n, hnumeral, hn, hs⟩
    refine ⟨⟨type, .ofNat n⟩, numeral, ?_, hs⟩
    rwa [UInt32.toNat_ofNat_of_lt' hn]

/-- Names of ports are read exactly: what has the form of one is read as the port that it names, and
all else is refused. What is written of a port names it; and what is written of a port that a text
names is one token, names the same port, and is written of it again. -/
theorem read_exactly_written :
    (∀ key s p, read key s = .ok p ↔ p.Written s) ∧
      (∀ key s, (∃ p, read key s = .ok p) ↔ ∃ type ∈ typeNames, ∃ numeral n,
        IsNumeral numeral n ∧ n < 2 ^ 32 ∧ s.toList = type.toList ++ ':' :: numeral) ∧
      (∀ key s, (∀ p : Port, ¬p.Written s) → read key s = .error (.keyInvalid key s)) ∧
      (∀ key p, read key p.text = .ok p) ∧
      ∀ s t, normal? s = some t → isToken t ∧ ofText? t = ofText? s ∧ normal? t = some t := by
  refine ⟨fun key s p => read_eq_ok_iff, fun key s => ?_, fun key s h => ?_, fun key p => ?_,
    fun s t h => ?_⟩
  · simp only [read_eq_ok_iff, exists_written_iff]
  · rcases hp : ofText? s with _ | p
    · rw [read, hp]
    · exact absurd (ofText?_eq_some_iff.1 hp) (h p)
  · exact read_eq_ok_iff.2 p.written_text
  · obtain ⟨p, hs, rfl⟩ := normal?_eq_some_iff.1 h
    refine ⟨p.isToken_text, ?_, normal?_eq_some_iff.2 ⟨p, p.written_text, rfl⟩⟩
    rw [ofText?_eq_some_iff.2 hs, ofText?_text]

/-- A plus sign and zeros in front make no other port, and are not written. Two signs make none. -/
theorem read_exactly_written_with_sign :
    normal? "ring:+007" = some "ring:7" ∧ (∀ p : Port, ¬p.Written "ring:++7") ∧
      isToken "ring:7" ∧ ofText? "ring:7" = ofText? "ring:+007" ∧ normal? "ring:7" = some "ring:7" ∧
      read "port" "ring:++7" = .error (.keyInvalid "port" "ring:++7") := by
  have hnormal : normal? "ring:+007" = some "ring:7" := by decide +kernel
  have hnone : ∀ p : Port, ¬p.Written "ring:++7" := by
    intro p hp
    have hread : ofText? "ring:++7" = none := by decide +kernel
    rw [ofText?_eq_some_iff.2 hp] at hread
    cases hread
  obtain ⟨-, -, hrefused, -, hagain⟩ := read_exactly_written
  obtain ⟨htoken, hsame, hfixed⟩ := hagain _ _ hnormal
  exact ⟨hnormal, hnone, htoken, hsame, hfixed, hrefused _ _ hnone⟩

end Port

/-! ## MAC addresses -/

section

variable {separator : Char} {n : Nat} {cs : List Char}

theorem isHexPairs_zero_iff :
    isHexPairs separator 0 cs ↔ ∃ a b, cs = [a, b] ∧ isHexDigit a ∧ isHexDigit b := by
  rcases cs with _ | ⟨a, _ | ⟨b, _ | ⟨c, rest⟩⟩⟩ <;> simp [isHexPairs]

theorem isHexPairs_succ_iff :
    isHexPairs separator (n + 1) cs ↔ ∃ a b rest, cs = a :: b :: separator :: rest ∧
      isHexDigit a ∧ isHexDigit b ∧ isHexPairs separator n rest := by
  rcases cs with _ | ⟨a, _ | ⟨b, _ | ⟨c, rest⟩⟩⟩
  · simp [isHexPairs]
  · simp [isHexPairs]
  · simp [isHexPairs]
  · simp only [isHexPairs, Bool.and_eq_true, beq_iff_eq, List.cons.injEq]
    constructor
    · rintro ⟨⟨⟨ha, hb⟩, hc⟩, hrest⟩
      exact ⟨a, b, rest, ⟨rfl, rfl, hc, rfl⟩, ha, hb, hrest⟩
    · rintro ⟨_, _, _, ⟨rfl, rfl, hc, rfl⟩, ha, hb, hrest⟩
      exact ⟨⟨⟨ha, hb⟩, hc⟩, hrest⟩

/-- What is checked are pairs of digits with the separator between them. -/
theorem isHexPairs_iff :
    isHexPairs separator n cs ↔ ∃ pairs : List (Char × Char), pairs.length = n + 1 ∧
      (∀ p ∈ pairs, isHexDigit p.1 ∧ isHexDigit p.2) ∧
      cs = [separator].intercalate (pairs.map fun p => [p.1, p.2]) := by
  induction n generalizing cs with
  | zero =>
    rw [isHexPairs_zero_iff]
    constructor
    · rintro ⟨a, b, rfl, ha, hb⟩
      exact ⟨[(a, b)], rfl, by simp [ha, hb], rfl⟩
    · rintro ⟨pairs, hlen, hdigits, rfl⟩
      obtain ⟨⟨a, b⟩, rfl⟩ := List.length_eq_one_iff.1 hlen
      obtain ⟨ha, hb⟩ := hdigits (a, b) List.mem_cons_self
      exact ⟨a, b, rfl, ha, hb⟩
  | succ n ih =>
    rw [isHexPairs_succ_iff]
    constructor
    · rintro ⟨a, b, rest, rfl, ha, hb, hrest⟩
      obtain ⟨pairs, hlen, hdigits, rfl⟩ := ih.1 hrest
      refine ⟨(a, b) :: pairs, by rw [List.length_cons, hlen], ?_, ?_⟩
      · exact List.forall_mem_cons.2 ⟨⟨ha, hb⟩, hdigits⟩
      · cases pairs with
        | nil => cases hlen
        | cons p pairs => simp [List.intercalate_cons_cons]
    · rintro ⟨pairs, hlen, hdigits, rfl⟩
      rcases pairs with _ | ⟨⟨a, b⟩, _ | ⟨p, pairs⟩⟩
      · cases hlen
      · cases hlen
      · obtain ⟨⟨ha, hb⟩, hrest⟩ := List.forall_mem_cons.1 hdigits
        refine ⟨a, b, _, ?_, ha, hb, ih.2 ⟨p :: pairs, Nat.succ.inj hlen, hrest, rfl⟩⟩
        simp [List.intercalate_cons_cons]

end

/-! ### As a regular expression -/

/-- A character of a class. -/
def anyOf (cs : List Char) : RegularExpression Char :=
  (cs.map .char).sum

/-- The hexadecimal digits. -/
def hexDigits : List Char :=
  "0123456789ABCDEFabcdef".toList

theorem mem_matches_char {c : Char} {text : List Char} :
    text ∈ (RegularExpression.char c).matches' ↔ text = [c] :=
  Iff.rfl

theorem mem_matches_anyOf {cs text : List Char} :
    text ∈ (anyOf cs).matches' ↔ ∃ c ∈ cs, text = [c] := by
  induction cs with
  | nil => simp [anyOf]
  | cons c cs ih =>
    have hsum : anyOf (c :: cs) = .char c + anyOf cs := List.sum_cons
    rw [hsum, RegularExpression.matches'_add, Language.mem_add, mem_matches_char, ih]
    simp

theorem mem_hexDigits {c : Char} : c ∈ hexDigits ↔ isHexDigit c := by
  constructor
  · have hall : hexDigits.all isHexDigit := by decide
    exact List.all_eq_true.1 hall c
  · intro h
    have hsmall : ∀ n < 103, isHexDigit (Char.ofNat n) → Char.ofNat n ∈ hexDigits := by
      decide +kernel
    have hlt : c.toNat < 103 := by
      simp only [isHexDigit, Bool.or_eq_true, Bool.and_eq_true, decide_eq_true_eq] at h
      rcases h with (⟨-, hc⟩ | ⟨-, hc⟩) | ⟨-, hc⟩
      · exact Nat.lt_of_le_of_lt (show c.toNat ≤ 57 from hc) (by decide)
      · exact Nat.lt_of_le_of_lt (show c.toNat ≤ 102 from hc) (by decide)
      · exact Nat.lt_of_le_of_lt (show c.toNat ≤ 70 from hc) (by decide)
    have hc := hsmall c.toNat hlt
    rw [Char.ofNat_toNat] at hc
    exact hc h

/-- A pair of digits. -/
theorem mem_matches_pair {text : List Char} :
    text ∈ (anyOf hexDigits ^ 2).matches' ↔ ∃ a b, text = [a, b] ∧ isHexDigit a ∧ isHexDigit b := by
  rw [RegularExpression.matches'_pow, sq, Language.mem_mul]
  simp only [mem_matches_anyOf, mem_hexDigits]
  constructor
  · rintro ⟨_, ⟨a, ha, rfl⟩, _, ⟨b, hb, rfl⟩, rfl⟩
    exact ⟨a, b, rfl, ha, hb⟩
  · rintro ⟨a, b, rfl, ha, hb⟩
    exact ⟨[a], ⟨a, ha, rfl⟩, [b], ⟨b, hb, rfl⟩, rfl⟩

/-- A pair of digits with a separator behind it. -/
theorem mem_matches_pairThen {separator : Char} {text : List Char} :
    text ∈ (anyOf hexDigits ^ 2 * RegularExpression.char separator).matches' ↔
      ∃ a b, text = [a, b, separator] ∧ isHexDigit a ∧ isHexDigit b := by
  rw [RegularExpression.matches'_mul, Language.mem_mul]
  simp only [mem_matches_pair, mem_matches_char]
  constructor
  · rintro ⟨_, ⟨a, b, rfl, ha, hb⟩, _, rfl, rfl⟩
    exact ⟨a, b, rfl, ha, hb⟩
  · rintro ⟨a, b, rfl, ha, hb⟩
    exact ⟨[a, b], ⟨a, b, rfl, ha, hb⟩, [separator], rfl, rfl⟩

/-- Pairs of digits, `n` of them with a separator behind and one more, as a regular expression. -/
def pairsPattern (separator : Char) (n : Nat) : RegularExpression Char :=
  (anyOf hexDigits ^ 2 * .char separator) ^ n * anyOf hexDigits ^ 2

/-- What is checked is what the expression matches as a whole. -/
theorem mem_matches_pairsPattern {separator : Char} {n : Nat} {text : List Char} :
    text ∈ (pairsPattern separator n).matches' ↔ isHexPairs separator n text := by
  rw [pairsPattern, RegularExpression.matches'_mul, RegularExpression.matches'_pow]
  induction n generalizing text with
  | zero => rw [pow_zero, one_mul, mem_matches_pair, isHexPairs_zero_iff]
  | succ n ih =>
    rw [pow_succ', mul_assoc, isHexPairs_succ_iff, Language.mem_mul]
    simp only [mem_matches_pairThen, ih]
    constructor
    · rintro ⟨_, ⟨a, b, rfl, ha, hb⟩, rest, hrest, rfl⟩
      exact ⟨a, b, rest, rfl, ha, hb, hrest⟩
    · rintro ⟨a, b, rest, rfl, ha, hb, hrest⟩
      exact ⟨[a, b, separator], ⟨a, b, rfl, ha, hb⟩, rest, hrest, rfl⟩

namespace MacAddress

variable {s : String}

/-- Six pairs of digits with colons between them, or with hyphens. -/
def pattern : RegularExpression Char :=
  pairsPattern ':' 5 + pairsPattern '-' 5

theorem isMacText_iff_pattern : isMacText s ↔ s = "default" ∨ s.toList ∈ pattern.matches' := by
  rw [pattern, RegularExpression.matches'_add, Language.mem_add, mem_matches_pairsPattern,
    mem_matches_pairsPattern]
  simp [isMacText, or_assoc]

theorem isMacText_iff_grammar : isMacText s ↔ Grammar s := by
  simp only [isMacText, Bool.or_eq_true, beq_iff_eq, isHexPairs_iff, Grammar, List.mem_cons,
    List.not_mem_nil, or_false, exists_eq_or_imp, exists_eq_left, or_assoc]

theorem read_eq_error {key : String} (h : ¬Grammar s) :
    read key s = .error (.keyInvalid key s) := by
  rw [read, ofText?, dif_neg fun hs => h (isMacText_iff_grammar.1 hs)]

theorem read_eq_ok_iff {key : String} {m : MacAddress} :
    read key s = .ok m ↔ Grammar s ∧ m.text = s := by
  by_cases hs : isMacText s
  · have hread : read key s = .ok ⟨s, hs⟩ := by rw [read, ofText?, dif_pos hs]
    rw [hread]
    constructor
    · rintro ⟨⟩
      exact ⟨isMacText_iff_grammar.1 hs, rfl⟩
    · rintro ⟨-, rfl⟩
      rfl
  · have hnot : ¬Grammar s := fun h => hs (isMacText_iff_grammar.2 h)
    rw [read_eq_error hnot]
    constructor
    · rintro ⟨⟩
    · rintro ⟨h, -⟩
      exact absurd h hnot

/-- The line of an entry of the classifier table is cut at its spaces into its fields, so how many
there are does not depend on the address. -/
theorem splitOn_line_classifierTable (action : TableAction) (e : TableEntry) :
    ((Command.classifierTable action e).line.toList.splitOn ' ').map String.ofList =
      "classifier_table" :: action.name :: Command.entryFields e := by
  have hclean : (Command.classifierTable action e).IsClean :=
    Command.isClean_of_texts nofun nofun
  obtain ⟨text, hline, hwords⟩ := hclean.renders.words
  obtain rfl : _ = text := hline.trans (List.append_nil text)
  exact hwords

/-- MAC addresses are read exactly: `default`, or six pairs of hexadecimal digits with colons or
with hyphens between them, which is what a regular expression matches as a whole. Everything else is
refused. The text is kept and is one token, and a line for the classifier table has as many tokens
with any address. -/
theorem read_exactly_grammar :
    (∀ key s, (∃ m, read key s = .ok m) ↔ Grammar s) ∧
      (∀ s, Grammar s ↔ s = "default" ∨ s.toList ∈ pattern.matches') ∧
      (∀ key s, ¬Grammar s → read key s = .error (.keyInvalid key s)) ∧
      (∀ key s m, read key s = .ok m → m.text = s ∧ isToken s) ∧
      (∀ action mac port,
        ((Command.classifierTable action ⟨none, mac, port⟩).line.toList.splitOn ' ').map
          String.ofList = ["classifier_table", action.name, "mac", mac.text, port.text]) ∧
      ∀ action vlan mac port,
        ((Command.classifierTable action ⟨some vlan, mac, port⟩).line.toList.splitOn ' ').map
          String.ofList =
            ["classifier_table", action.name, "vlan", decimal vlan.toNat, mac.text, port.text] := by
  refine ⟨fun key s => ?_, fun s => ?_, fun key s => read_eq_error, fun key s m h => ?_,
    fun action mac port => splitOn_line_classifierTable action _,
    fun action vlan mac port => splitOn_line_classifierTable action _⟩
  · constructor
    · rintro ⟨m, hm⟩
      exact (read_eq_ok_iff.1 hm).1
    · intro hs
      exact ⟨⟨s, isMacText_iff_grammar.2 hs⟩, read_eq_ok_iff.2 ⟨hs, rfl⟩⟩
  · rw [← isMacText_iff_grammar, isMacText_iff_pattern]
  · obtain ⟨-, rfl⟩ := read_eq_ok_iff.1 h
    exact ⟨rfl, m.isToken_text⟩

/-- Digits of either case make an address, and with a line feed at the end they make none. -/
theorem read_exactly_grammar_of_either_case :
    read "mac_address" "00-11-22-aA-bB-cC" = .ok ⟨"00-11-22-aA-bB-cC", by decide⟩ ∧
      ¬Grammar "00:11:22:aa:bb:cc\n" ∧ isToken "00-11-22-aA-bB-cC" ∧
      read "mac_address" "00:11:22:aa:bb:cc\n" =
        .error (.keyInvalid "mac_address" "00:11:22:aa:bb:cc\n") := by
  have hread : read "mac_address" "00-11-22-aA-bB-cC" = .ok ⟨"00-11-22-aA-bB-cC", by decide⟩ := rfl
  have hnot : ¬Grammar "00:11:22:aa:bb:cc\n" := by
    rw [← isMacText_iff_grammar]
    decide
  obtain ⟨-, -, hrefused, hkept, -⟩ := read_exactly_grammar
  exact ⟨hread, hnot, (hkept _ _ _ hread).2, hrefused _ _ hnot⟩

end MacAddress

end WorkerBroker
