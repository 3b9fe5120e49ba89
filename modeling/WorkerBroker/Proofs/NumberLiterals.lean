import WorkerBroker.Json.Reader
import WorkerBroker.Proofs.Numerals
import WorkerBroker.Proofs.WrittenJson
/-!
# Number literals

A text from which a number is read is a literal, blanks aside: a minus sign or none, digits, and
maybe a fraction and an exponent. `Json.isLiteral_of_read` compares the literal with the number. An
integer is read from its numerals only. A float is read from what is no numeral, as it has a
fraction or an exponent, from the numerals of integers that are too large, and from `-0`, which
is a numeral of an integer and is read as the negative zero.

The readers are followed byte by byte, and what they took is the bytes of characters; a text is known
by its bytes (`bytesOf_inj`).
-/

namespace WorkerBroker

open Utf8 (bytesOf)

/-! ## Characters of bytes -/

theorem bytesOf_inj {cs ds : List Char} (h : bytesOf cs = bytesOf ds) : cs = ds :=
  Option.some.inj ((Utf8.decode_bytesOf cs).symm.trans (h ▸ Utf8.decode_bytesOf ds))

/-- The byte of an ASCII character stands only where the character does. -/
theorem mem_of_mem_bytesOf {c : Char} {cs : List Char} (hc : c.toNat < 128)
    (h : UInt8.ofNat c.toNat ∈ bytesOf cs) : c ∈ cs := by
  obtain ⟨d, hd, hmem⟩ := List.mem_flatMap.1 h
  have hbyte : (UInt8.ofNat c.toNat).toNat = c.toNat := Utf8.toNat_byte (by omega)
  have hascii : d.toNat < 128 := by
    by_contra hlarge
    have := Utf8.le_of_mem_encodeChar (Nat.le_of_not_lt hlarge) _ hmem
    omega
  rw [Utf8.encodeChar_ascii hascii, List.mem_singleton] at hmem
  have heq : c.toNat = d.toNat := by rw [← hbyte, hmem, Utf8.toNat_byte (by omega)]
  rwa [Char.toNat_inj.1 heq]

theorem exists_of_isJsonBlank {b : UInt8} (h : isJsonBlank b) :
    ∃ c, isBlank c ∧ String.utf8EncodeChar c = [b] := by
  simp only [isJsonBlank, Bool.or_eq_true, beq_iff_eq] at h
  rcases h with ((rfl | rfl) | rfl) | rfl
  · exact ⟨' ', by decide, by decide⟩
  · exact ⟨'\t', by decide, by decide⟩
  · exact ⟨'\n', by decide, by decide⟩
  · exact ⟨'\r', by decide, by decide⟩

theorem exists_blanks {bytes : Bytes} (h : ∀ b ∈ bytes, isJsonBlank b) :
    ∃ cs, (∀ c ∈ cs, isBlank c) ∧ bytes = bytesOf cs := by
  induction bytes with
  | nil => exact ⟨[], nofun, rfl⟩
  | cons b bytes ih =>
    obtain ⟨hb, hbytes⟩ := List.forall_mem_cons.1 h
    obtain ⟨c, hc, hcode⟩ := exists_of_isJsonBlank hb
    obtain ⟨cs, hcs, rfl⟩ := ih hbytes
    exact ⟨c :: cs, List.forall_mem_cons.2 ⟨hc, hcs⟩, by rw [Utf8.bytesOf_cons, hcode]; rfl⟩

/-- What stands in front of the first byte that is no blank. -/
theorem exists_of_skipBlanks (bytes : Bytes) :
    ∃ before, (∀ c ∈ before, isBlank c) ∧ bytes = bytesOf before ++ skipBlanks bytes := by
  have hfront : ∀ b ∈ bytes.takeWhile isJsonBlank, isJsonBlank b :=
    fun b hb => List.mem_takeWhile_imp hb
  obtain ⟨before, hb, hbytes⟩ := exists_blanks hfront
  refine ⟨before, hb, ?_⟩
  rw [← hbytes, skipBlanks, List.takeWhile_append_dropWhile]

/-! ## The parts of a literal -/

section

variable {bytes rest : Bytes} {ds : List Nat}

theorem exists_of_digitOf? {b : UInt8} {d : Nat} (h : digitOf? b = some d) :
    ∃ c : Char, c.isDigit ∧ String.utf8EncodeChar c = [b] ∧ digitValue c = d := by
  rw [digitOf?] at h
  split at h
  · rename_i hdigit
    simp only [Bool.and_eq_true, decide_eq_true_eq, UInt8.le_iff_toNat_le] at hdigit
    cases h
    have hone : b.toNat < 128 := Nat.lt_of_le_of_lt hdigit.2 (by decide)
    have hc : (Char.ofNat b.toNat).toNat = b.toNat := Utf8.toNat_val_ofNat (.inl (by omega))
    refine ⟨Char.ofNat b.toNat, ?_, Utf8.encodeChar_one hone, ?_⟩
    · have hval : (Char.ofNat b.toNat).val.toNat = b.toNat := hc
      simp only [Char.isDigit, Bool.and_eq_true, decide_eq_true_eq, ge_iff_le,
        UInt32.le_iff_toNat_le, hval]
      exact hdigit
    · rw [digitValue, hc]
      rfl
  · cases h

/-- What is taken off as digits is digits. -/
theorem exists_of_spanDigits (found : List Nat) (bytes : Bytes) :
    ∃ cs : List Char, (∀ c ∈ cs, c.isDigit) ∧
      bytes = bytesOf cs ++ (spanDigits.go found bytes).2 ∧
      (spanDigits.go found bytes).1 = found.reverse ++ cs.map digitValue := by
  induction bytes generalizing found with
  | nil => exact ⟨[], nofun, rfl, by simp [spanDigits.go]⟩
  | cons b bytes ih =>
    rcases hdigit : digitOf? b with _ | d
    · exact ⟨[], nofun, by simp [spanDigits.go, hdigit], by simp [spanDigits.go, hdigit]⟩
    · obtain ⟨c, hc, hcode, hvalue⟩ := exists_of_digitOf? hdigit
      obtain ⟨cs, hcs, hbytes, hfound⟩ := ih (d :: found)
      refine ⟨c :: cs, List.forall_mem_cons.2 ⟨hc, hcs⟩, ?_, ?_⟩
      · simp only [spanDigits.go, hdigit, Utf8.bytesOf_cons, hcode, List.cons_append]
        exact congrArg _ hbytes
      · simp only [spanDigits.go, hdigit, hfound, List.reverse_cons, List.map_cons, hvalue,
          List.append_assoc, List.singleton_append]

theorem exists_of_readSomeDigits (h : readSomeDigits bytes = .ok (ds, rest)) :
    ∃ cs : List Char, cs ≠ [] ∧ (∀ c ∈ cs, c.isDigit) ∧ bytes = bytesOf cs ++ rest ∧
      ds = cs.map digitValue := by
  obtain ⟨cs, hcs, hbytes, hfound⟩ := exists_of_spanDigits [] bytes
  rw [readSomeDigits, spanDigits] at h
  split at h
  · cases h
  · cases h
  · rename_i hsome
    rw [Except.ok.injEq] at h
    rw [h] at hbytes hfound
    refine ⟨cs, ?_, hcs, hbytes, hfound⟩
    rintro rfl
    obtain rfl : ds = [] := hfound
    exact hsome rest h

/-- The whole part has a 0 in front only if it is 0. -/
theorem exists_of_readWhole (h : readWhole bytes = .ok (ds, rest)) :
    ∃ cs : List Char, cs ≠ [] ∧ (∀ c ∈ cs, c.isDigit) ∧ bytes = bytesOf cs ++ rest ∧
      ds = cs.map digitValue ∧ ∀ d ds', ds ≠ 0 :: d :: ds' := by
  rw [readWhole] at h
  split at h
  · cases h
  · rename_i hno
    obtain ⟨cs, hne, hcs, hbytes, hds⟩ := exists_of_readSomeDigits h
    refine ⟨cs, hne, hcs, hbytes, hds, ?_⟩
    rintro d ds' rfl
    exact hno _ _ _ h

theorem readFraction_cases {fraction : Option (List Nat)}
    (h : readFraction bytes = .ok (fraction, rest)) :
    (fraction = none ∧ rest = bytes) ∨ fraction.isSome ∧ 0x2e ∈ bytes := by
  rw [readFraction.eq_def] at h
  split at h
  · rename_i behind
    rcases hdigits : readSomeDigits behind with _ | ⟨ds, rest'⟩ <;> rw [hdigits] at h <;> cases h
    exact .inr ⟨rfl, List.mem_cons_self⟩
  · cases h
    exact .inl ⟨rfl, rfl⟩

theorem readExponent_cases {exponent : Option (Bool × List Nat)}
    (h : readExponent bytes = .ok (exponent, rest)) :
    (exponent = none ∧ rest = bytes) ∨ exponent.isSome ∧ (0x65 ∈ bytes ∨ 0x45 ∈ bytes) := by
  cases bytes with
  | nil =>
    cases h
    exact .inl ⟨rfl, rfl⟩
  | cons b behind =>
    rw [readExponent] at h
    split at h
    · rename_i hmark
      simp only [Bool.or_eq_true, decide_eq_true_eq] at hmark
      refine .inr ⟨?_, ?_⟩
      · rcases hdigits : readSomeDigits (spanSign behind).2 with _ | ⟨ds, rest'⟩ <;>
          simp only [hdigits] at h <;> cases h
        rfl
      · rcases hmark with rfl | rfl
        · exact .inl List.mem_cons_self
        · exact .inr List.mem_cons_self
    · cases h
      exact .inl ⟨rfl, rfl⟩

/-- A byte that stands in a literal only in front of a fraction or of an exponent. -/
def IsMark (b : UInt8) : Prop :=
  b = 0x2e ∨ b = 0x65 ∨ b = 0x45

/-- A literal has a fraction or an exponent, or it is digits. -/
theorem readLiteral_cases {negative : Bool} {l : NumberLiteral}
    (h : readLiteral negative bytes = .ok (l, rest)) :
    ((l.fraction.isSome ∨ l.exponent.isSome) ∧ ∃ b ∈ bytes, IsMark b) ∨
      ∃ cs : List Char, cs ≠ [] ∧ (∀ c ∈ cs, c.isDigit) ∧ bytes = bytesOf cs ++ rest ∧
        l = ⟨negative, cs.map digitValue, none, none⟩ ∧
        ∀ d ds', cs.map digitValue ≠ 0 :: d :: ds' := by
  rw [readLiteral] at h
  rcases hwhole : readWhole bytes with _ | ⟨whole, rest₁⟩ <;> simp only [hwhole] at h
  · cases h
  rcases hfraction : readFraction rest₁ with _ | ⟨fraction, rest₂⟩ <;> simp only [hfraction] at h
  · cases h
  rcases hexponent : readExponent rest₂ with _ | ⟨exponent, rest₃⟩ <;> simp only [hexponent] at h
  · cases h
  cases h
  obtain ⟨cs, hne, hcs, rfl, rfl, hzero⟩ := exists_of_readWhole hwhole
  rcases readFraction_cases hfraction with ⟨rfl, rfl⟩ | ⟨hsome, hmark⟩
  · rcases readExponent_cases hexponent with ⟨rfl, rfl⟩ | ⟨hsome, hmark⟩
    · exact .inr ⟨cs, hne, hcs, rfl, rfl, hzero⟩
    · refine .inl ⟨.inr hsome, ?_⟩
      rcases hmark with hmark | hmark
      · exact ⟨_, List.mem_append_right _ hmark, .inr (.inl rfl)⟩
      · exact ⟨_, List.mem_append_right _ hmark, .inr (.inr rfl)⟩
  · exact .inl ⟨.inl hsome, _, List.mem_append_right _ hmark, .inl rfl⟩

end

/-! ## The value of a literal -/

/-- The integer with a sign and an absolute value. -/
def signed (negative : Bool) (n : Nat) : Int :=
  if negative then -n else n

/-- A number is a float. -/
def JsonNumber.IsFloat (n : JsonNumber) : Prop :=
  ∃ bits, n = .float bits

section

variable {negative : Bool} {rest : Bytes} {n : JsonNumber}

theorem isFloat_of_scaledValue {digits : Nat} {e : Int}
    (h : scaledValue negative digits e = some n) : n.IsFloat := by
  obtain ⟨m, -, rfl⟩ := Option.map_eq_some_iff.1 h
  exact ⟨_, rfl⟩

theorem isFloat_of_finish {digits : Nat} {e : Int} {halt : Halt}
    (h : (match scaledValue negative digits e with
      | some n => Except.ok n
      | none => .error halt) = .ok n) : n.IsFloat := by
  split at h
  · cases h
    exact isFloat_of_scaledValue ‹_›
  · cases h

/-- A fraction or an exponent makes a float. -/
theorem NumberLiteral.isFloat_of_value {l : NumberLiteral}
    (hmark : l.fraction.isSome ∨ l.exponent.isSome) : l.value rest = .ok n → n.IsFloat := by
  fun_cases NumberLiteral.value l rest with
  | case1 => exact nofun
  | case2 =>
    rintro ⟨⟩
    exact ⟨_, rfl⟩
  | case3 | case5 | case6 => exact isFloat_of_finish
  | case4 =>
    -- neither a fraction nor an exponent
    simp_all

/-- Digits that are all kept are of the number that is made of them. -/
theorem foldl_of_appendDigits {ds : List Nat} {k m : Nat} (h : appendDigits k ds = (m, [])) :
    ds.foldl (fun n d => 10 * n + d) k = m := by
  induction ds generalizing k with
  | nil =>
    cases h
    rfl
  | cons d ds ih =>
    rw [appendDigits] at h
    split at h
    · exact ih h
    · cases h

theorem eq_int_of_integerValue? {k : Nat} (h : integerValue? negative k = some n) :
    n = .int (signed negative k) := by
  rw [integerValue?] at h
  cases negative with
  | false => exact (Option.some.inj h).symm
  | true =>
    split at h
    · contradiction
    · split at h
      · exact (Option.some.inj h).symm
      · cases h

theorem of_integerValue?_eq_none {k : Nat} (h : integerValue? negative k = none) :
    negative ∧ (k = 0 ∨ signUnit < k) := by
  rw [integerValue?] at h
  cases negative with
  | false => cases h
  | true =>
    split at h
    · cases h
    · split at h
      · cases h
      · exact ⟨rfl, by omega⟩

theorem not_fitsI64_signed {k : Nat} (h : signUnit < k) : ¬fitsI64 (signed negative k) := by
  have hunit : signUnit = 9223372036854775808 := rfl
  intro hfits
  have hrange := of_decide_eq_true hfits
  rw [signed] at hrange
  split at hrange <;> omega

/-- Digits alone make the integer that they are of, unless this is too large or has a sign for
nothing. -/
theorem NumberLiteral.value_of_digits {ds : List Nat} :
    NumberLiteral.value ⟨negative, ds, none, none⟩ rest = .ok n →
      n = .int (signed negative (numberOf ds)) ∨
        n.IsFloat ∧ (¬fitsI64 (signed negative (numberOf ds)) ∨ negative ∧ numberOf ds = 0) := by
  fun_cases NumberLiteral.value ⟨negative, ds, none, none⟩ rest with
  | case1 _ _ _ _ _ _ _ _ h | case2 _ _ _ _ _ _ _ _ h | case3 _ _ _ _ _ _ _ _ _ _ _ h => cases h
  | case4 =>
    rename_i hvalue hkept
    obtain rfl : numberOf ds = _ := foldl_of_appendDigits hkept
    rintro ⟨⟩
    exact .inl (eq_int_of_integerValue? hvalue)
  | case5 =>
    rename_i hvalue hkept
    obtain rfl : numberOf ds = _ := foldl_of_appendDigits hkept
    intro h
    refine .inr ⟨isFloat_of_finish h, ?_⟩
    obtain ⟨hnegative, hk | hk⟩ := of_integerValue?_eq_none hvalue
    · exact .inr ⟨hnegative, hk⟩
    · exact .inl (not_fitsI64_signed hk)
  | case6 digits dropped hkept _ _ _ _ _ _ _ hdropped =>
    intro h
    refine .inr ⟨isFloat_of_finish h, .inl (not_fitsI64_signed ?_)⟩
    -- otherwise all digits would have been kept
    by_contra hsmall
    have hlt : numberOf ds < UInt64.size :=
      Nat.lt_of_le_of_lt (Nat.le_of_not_lt hsmall) (by decide)
    rw [appendDigits_eq hlt] at hkept
    cases hkept
    exact hdropped rfl rfl

end

/-! ## Literals in text -/

/-- The sign of a number that is negative. -/
def signChars (negative : Bool) : List Char :=
  if negative then ['-'] else []

/-- A text is a literal of a number, blanks aside. An integer has its numerals; what a float may
be read from is told as far as it has to do with integers. -/
inductive IsLiteral (text : List Char) : JsonNumber → Prop
  | integer {m : Int} (h : IsSignedNumeral (trim text) m) : IsLiteral text (.int m)
  | large {m : Int} {bits : UInt64} (h : IsSignedNumeral (trim text) m) (hlarge : ¬fitsI64 m) :
      IsLiteral text (.float bits)
  | minusZero {bits : UInt64} (h : trim text = ['-', '0']) : IsLiteral text (.float bits)
  | marked {c : Char} {bits : UInt64} (hc : c ∈ text) (hmark : c = '.' ∨ c = 'e' ∨ c = 'E') :
      IsLiteral text (.float bits)

theorem IsLiteral.surrounded {before text after : List Char} {n : JsonNumber}
    (h : IsLiteral text n) (hb : ∀ c ∈ before, isBlank c) (ha : ∀ c ∈ after, isBlank c) :
    IsLiteral (before ++ (text ++ after)) n := by
  have htrim := trim_surrounded text hb ha
  cases h with
  | integer h => exact .integer (htrim ▸ h)
  | large h hlarge => exact .large (htrim ▸ h) hlarge
  | minusZero h => exact .minusZero (htrim ▸ h)
  | marked hc hmark => exact .marked (List.mem_append_right _ (List.mem_append_left _ hc)) hmark

theorem isSignedNumeral_signed {negative : Bool} {cs : List Char} (hne : cs ≠ [])
    (hcs : ∀ c ∈ cs, c.isDigit) :
    IsSignedNumeral (signChars negative ++ cs)
      (signed negative (numberOf (cs.map digitValue))) := by
  rw [numberOf, foldl_digitValue]
  cases negative with
  | false => exact .plain ⟨[], cs, rfl, .inl rfl, hne, hcs, rfl⟩
  | true => exact .minus hne hcs rfl

/-- Digits of the number 0 are a single 0, as there is no 0 in front. -/
theorem eq_zero_of_numberOf {cs : List Char} (hne : cs ≠ []) (hcs : ∀ c ∈ cs, c.isDigit)
    (hfront : ∀ d ds, cs.map digitValue ≠ 0 :: d :: ds)
    (h : numberOf (cs.map digitValue) = 0) : cs = ['0'] := by
  obtain ⟨c, cs, rfl⟩ := List.exists_cons_of_ne_nil hne
  have hdigit : c.isDigit := hcs c List.mem_cons_self
  have hle := le_foldl_digits (cs.map digitValue) (10 * 0 + digitValue c)
  have hc : digitValue c = 0 := by
    rw [numberOf, List.map_cons, List.foldl_cons] at h
    omega
  have hnil : cs = [] := by
    cases cs with
    | nil => rfl
    | cons d ds =>
      refine absurd ?_ (hfront (digitValue d) (ds.map digitValue))
      rw [List.map_cons, List.map_cons, hc]
  have hchar : c = '0' := by
    have hrange : 48 ≤ c.toNat := by
      simp only [Char.isDigit, Bool.and_eq_true, decide_eq_true_eq, ge_iff_le,
        UInt32.le_iff_toNat_le] at hdigit
      exact hdigit.1
    have hzero : c.toNat - 48 = 0 := hc
    exact Char.toNat_inj.1 (show c.toNat = 48 by omega)
  rw [hnil, hchar]

/-- What is read as a number has a mark in it, or it is digits of the number. -/
theorem readNumber_cases {negative : Bool} {bytes rest : Bytes} {n : JsonNumber}
    (h : readNumber negative bytes = .ok (n, rest)) :
    (n.IsFloat ∧ ∃ b ∈ bytes, IsMark b) ∨
      ∃ cs, bytes = bytesOf cs ++ rest ∧ ∃ m, IsSignedNumeral (signChars negative ++ cs) m ∧
        (n = .int m ∨ n.IsFloat ∧ (¬fitsI64 m ∨ signChars negative ++ cs = ['-', '0'])) := by
  rw [readNumber] at h
  rcases hliteral : readLiteral negative bytes with _ | ⟨l, rest'⟩ <;> simp only [hliteral] at h
  · cases h
  rcases hvalue : l.value rest' with _ | n' <;> rw [hvalue] at h <;> cases h
  rcases readLiteral_cases hliteral with ⟨hmark, hmem⟩ | ⟨cs, hne, hcs, hbytes, rfl, hfront⟩
  · exact .inl ⟨NumberLiteral.isFloat_of_value hmark hvalue, hmem⟩
  · refine .inr ⟨cs, hbytes, _, isSignedNumeral_signed hne hcs, ?_⟩
    rcases NumberLiteral.value_of_digits hvalue with hint | ⟨hfloat, hlarge | ⟨rfl, hzero⟩⟩
    · exact .inl hint
    · exact .inr ⟨hfloat, .inl hlarge⟩
    · refine .inr ⟨hfloat, .inr ?_⟩
      rw [eq_zero_of_numberOf hne hcs hfront hzero]
      rfl

namespace Json

variable {bytes rest : Bytes} {n : JsonNumber} {fuel depth : Nat}

theorem readScalar_number {b : UInt8} {behind : Bytes}
    (h : readScalar b behind = .ok (.number n, rest)) :
    ∃ negative body, b :: behind = bytesOf (signChars negative) ++ body ∧
      readNumber negative body = .ok (n, rest) := by
  have hconstant : ∀ {letters v}, readConstant letters v behind = .ok (.number n, rest) →
      v = .number n := by
    intro letters v h
    rw [readConstant] at h
    rcases hword : readWord letters behind with _ | rest' <;> rw [hword] at h <;> cases h
    rfl
  have hnumeric : ∀ {negative body}, readNumeric negative body = .ok (.number n, rest) →
      readNumber negative body = .ok (n, rest) := by
    intro negative body h
    rw [readNumeric] at h
    rcases hnumber : readNumber negative body with _ | ⟨n', rest'⟩ <;> rw [hnumber] at h <;> cases h
    rfl
  rw [readScalar] at h
  split at h
  · cases hconstant h
  split at h
  · cases hconstant h
  split at h
  · cases hconstant h
  split at h
  · rename_i hminus
    exact ⟨true, behind, by rw [hminus]; rfl, hnumeric h⟩
  split at h
  · exact ⟨false, b :: behind, rfl, hnumeric h⟩
  split at h
  · rcases htext : readText behind with _ | ⟨s, rest'⟩ <;> rw [htext] at h <;> cases h
  · cases h

/-- From items an array is read, whatever they are. -/
theorem readItems_isArray {found : List Json} {v : Json}
    (h : readItems fuel depth found bytes = .ok (v, rest)) : ∃ items, v = .array items := by
  induction fuel generalizing found bytes with
  | zero => cases h
  | succ fuel ih =>
    rw [readItems] at h
    split at h
    · cases h
    · split at h
      · cases h
      · cases h
        exact ⟨_, rfl⟩
      · exact ih h

theorem readMembers_isObject {found : Table String Json} {v : Json}
    (h : readMembers fuel depth found bytes = .ok (v, rest)) : ∃ members, v = .object members := by
  induction fuel generalizing found bytes with
  | zero => cases h
  | succ fuel ih =>
    rw [readMembers] at h
    split at h
    · cases h
    · split at h
      · cases h
      · split at h
        · cases h
        · cases h
          exact ⟨_, rfl⟩
        · exact ih h

theorem readValue_number (h : readValue fuel depth bytes = .ok (.number n, rest)) :
    ∃ before negative body, (∀ c ∈ before, isBlank c) ∧
      bytes = bytesOf before ++ (bytesOf (signChars negative) ++ body) ∧
      readNumber negative body = .ok (n, rest) := by
  obtain ⟨before, hb, hbytes⟩ := exists_of_skipBlanks bytes
  cases fuel with
  | zero => cases h
  | succ fuel =>
    rw [readValue] at h
    split at h
    · cases h
    · rename_i b behind hskip
      split at h
      · split at h
        · cases h
        · split at h
          · cases h
          · cases h
          · obtain ⟨items, hitems⟩ := readItems_isArray h
            cases hitems
      · split at h
        · split at h
          · cases h
          · split at h
            · cases h
            · cases h
            · obtain ⟨members, hmembers⟩ := readMembers_isObject h
              cases hmembers
        · obtain ⟨negative, body, hbody, hnumber⟩ := readScalar_number h
          exact ⟨before, negative, body, hb, by rw [hbytes, hskip, hbody], hnumber⟩

theorem exists_of_readEnd (h : readEnd bytes = .ok ()) :
    ∃ after, (∀ c ∈ after, isBlank c) ∧ bytes = bytesOf after := by
  obtain ⟨after, ha, hbytes⟩ := exists_of_skipBlanks bytes
  rw [readEnd] at h
  split at h
  · rename_i hnil
    exact ⟨after, ha, by rw [hbytes, hnil, List.append_nil]⟩
  · cases h

/-- A text from which a number is read is a literal of it. -/
theorem isLiteral_of_read {text : List Char} (h : read (bytesOf text) = .ok (.number n)) :
    IsLiteral text n := by
  rw [read] at h
  rcases hvalue : readValue (2 * (bytesOf text).length + 2) maxDepth (bytesOf text) with
    _ | ⟨v, rest⟩ <;> simp only [hvalue] at h
  · cases h
  rcases hend : readEnd rest with _ | u <;> rw [hend] at h <;> cases h
  obtain ⟨before, negative, body, hb, hbytes, hnumber⟩ := readValue_number hvalue
  obtain ⟨after, ha, rfl⟩ := exists_of_readEnd hend
  rcases readNumber_cases hnumber with ⟨⟨bits, rfl⟩, b, hmem, hmark⟩ | ⟨cs, rfl, m, hm, hn⟩
  · have hmem : b ∈ bytesOf text := by
      rw [hbytes]
      exact List.mem_append_right _ (List.mem_append_right _ hmem)
    rcases hmark with rfl | rfl | rfl
    · exact .marked (mem_of_mem_bytesOf (c := '.') (by decide) hmem) (.inl rfl)
    · exact .marked (mem_of_mem_bytesOf (c := 'e') (by decide) hmem) (.inr (.inl rfl))
    · exact .marked (mem_of_mem_bytesOf (c := 'E') (by decide) hmem) (.inr (.inr rfl))
  · have htrim : trim text = signChars negative ++ cs := by
      have htext : text = before ++ ((signChars negative ++ cs) ++ after) := by
        apply bytesOf_inj
        simp only [hbytes, Utf8.bytesOf_append, List.append_assoc]
      rw [htext]
      exact trim_eq_of_surrounded hb ha hm.not_isBlank
    rw [← htrim] at hm hn
    rcases hn with rfl | ⟨⟨bits, rfl⟩, hlarge | hzero⟩
    · exact .integer hm
    · exact .large hm hlarge
    · exact .minusZero hzero

end Json

end WorkerBroker
