import Mathlib.Data.List.TakeWhile
import WorkerBroker.Proofs.Tokens
/-!
# Numerals

Numbers reach the broker as text: in paths and queries, in the names of ports, in files of the
operating system. `IsNumeral` says which texts name a number, and `readNat` reads just these
(`readNat_eq_some_iff`), so a number has many numerals and a numeral names one number. Numerals of
integers may have a minus sign as well, and `readInt` reads these (`readInt_eq_some_iff`). Where
blanks may stand around a numeral, cutting them off gives it back (`trim_eq_of_surrounded`).
-/

namespace WorkerBroker

/-- A text is a numeral of a number: at most one `+`, and digits of that value. -/
def IsNumeral (cs : List Char) (n : Nat) : Prop :=
  ∃ sign ds, cs = sign ++ ds ∧ (sign = [] ∨ sign = ['+']) ∧ ds ≠ [] ∧ (∀ c ∈ ds, c.isDigit) ∧
    Nat.ofDigitChars 10 ds 0 = n

section

variable {cs : List Char} {n : Nat}

theorem readDigits_eq_some_iff :
    readDigits cs = some n ↔ cs ≠ [] ∧ (∀ c ∈ cs, c.isDigit) ∧ Nat.ofDigitChars 10 cs 0 = n := by
  unfold readDigits
  split
  · rename_i hbad
    simp only [Bool.or_eq_true, List.isEmpty_iff, Bool.not_eq_true', List.all_eq_false] at hbad
    constructor
    · intro h
      cases h
    · rintro ⟨hne, hall, -⟩
      rcases hbad with hnil | ⟨c, hc, hnot⟩
      · exact absurd hnil hne
      · exact absurd (hall c hc) hnot
  · rename_i hgood
    simp only [Bool.or_eq_true, List.isEmpty_iff, Bool.not_eq_true', List.all_eq_false, not_or,
      not_exists, not_and, not_not] at hgood
    obtain ⟨hne, hall⟩ := hgood
    constructor
    · intro h
      exact ⟨hne, hall, Option.some.inj h⟩
    · rintro ⟨-, -, hvalue⟩
      exact congrArg some hvalue

/-- What is read as a number is a numeral of it. -/
theorem readNat_eq_some_iff : readNat cs = some n ↔ IsNumeral cs n := by
  rw [readNat.eq_def]
  split
  · rename_i ds
    rw [readDigits_eq_some_iff]
    constructor
    · rintro ⟨hne, hall, hvalue⟩
      exact ⟨['+'], ds, rfl, .inr rfl, hne, hall, hvalue⟩
    · rintro ⟨sign, ds', hcs, rfl | rfl, hne, hall, hvalue⟩
      · -- no digit is a sign
        obtain rfl : '+' :: ds = ds' := hcs
        exact absurd (hall '+' List.mem_cons_self) (by decide)
      · obtain rfl : ds = ds' := List.tail_eq_of_cons_eq hcs
        exact ⟨hne, hall, hvalue⟩
  · rename_i hno
    rw [readDigits_eq_some_iff]
    constructor
    · rintro ⟨hne, hall, hvalue⟩
      exact ⟨[], cs, rfl, .inl rfl, hne, hall, hvalue⟩
    · rintro ⟨sign, ds, rfl, rfl | rfl, hne, hall, hvalue⟩
      · exact ⟨hne, hall, hvalue⟩
      · exact absurd rfl (hno ds)

theorem readU32_eq_some_iff {s : String} {n : UInt32} :
    readU32 s = some n ↔ IsNumeral s.toList n.toNat := by
  rw [← readNat_eq_some_iff, readU32, Option.bind_eq_some_iff]
  constructor
  · rintro ⟨m, hm, h⟩
    split at h
    · rename_i hlt
      cases h
      rw [hm, UInt32.toNat_ofNat_of_lt' hlt]
    · cases h
  · intro h
    refine ⟨n.toNat, h, ?_⟩
    rw [if_pos n.toNat_lt_size, UInt32.ofNat_toNat]

end

/-! ## Numerals among blanks -/

section

variable {cs ds before after : List Char}

theorem not_isBlank_of_isTokenChar {c : Char} (h : isTokenChar c) : ¬isBlank c := by
  simp only [isTokenChar, Bool.and_eq_true, Bool.not_eq_true'] at h
  simp [h.1]

theorem IsNumeral.not_isBlank {n : Nat} (h : IsNumeral cs n) : ∀ c ∈ cs, ¬isBlank c := by
  obtain ⟨sign, ds, rfl, hsign, -, hall, -⟩ := h
  intro c hc
  rcases List.mem_append.1 hc with hc | hc
  · rcases hsign with rfl | rfl
    · cases hc
    · obtain rfl := List.mem_singleton.1 hc
      decide
  · exact not_isBlank_of_isTokenChar (isTokenChar_of_isDigit (hall c hc))

/-- Blanks around a text make no difference to what is left when blanks are cut off. -/
theorem trim_surrounded (cs : List Char) (hb : ∀ c ∈ before, isBlank c)
    (ha : ∀ c ∈ after, isBlank c) : trim (before ++ (cs ++ after)) = trim cs := by
  have hfront : (before ++ (cs ++ after)).dropWhile isBlank = (cs ++ after).dropWhile isBlank :=
    List.dropWhile_append_of_pos hb
  by_cases hnil : cs.dropWhile isBlank = []
  · have hall : (cs ++ after).dropWhile isBlank = [] := by
      rw [List.dropWhile_append, hnil]
      exact List.dropWhile_eq_nil_iff.2 ha
    rw [trim, trim, hfront, hall, hnil]
  · have hkept : (cs ++ after).dropWhile isBlank = cs.dropWhile isBlank ++ after := by
      simp [List.dropWhile_append, hnil]
    have hback : ∀ c ∈ after.reverse, isBlank c := fun c hc => ha c (List.mem_reverse.1 hc)
    rw [trim, trim, hfront, hkept, List.reverse_append, List.dropWhile_append_of_pos hback]

theorem dropWhile_isBlank_eq (hds : ∀ c ∈ ds, ¬isBlank c) : ds.dropWhile isBlank = ds := by
  cases ds with
  | nil => rfl
  | cons c ds => exact List.dropWhile_cons_of_neg (hds c List.mem_cons_self)

/-- What has blanks around it and none in it is what is left when these are cut off. -/
theorem trim_eq_of_surrounded (hb : ∀ c ∈ before, isBlank c) (ha : ∀ c ∈ after, isBlank c)
    (hds : ∀ c ∈ ds, ¬isBlank c) : trim (before ++ (ds ++ after)) = ds := by
  have hback : ∀ c ∈ ds.reverse, ¬isBlank c := fun c hc => hds c (List.mem_reverse.1 hc)
  rw [trim_surrounded ds hb ha, trim, dropWhile_isBlank_eq hds, dropWhile_isBlank_eq hback,
    List.reverse_reverse]

/-- A text is what is left of it with the blanks around. -/
theorem exists_surrounded (cs : List Char) :
    ∃ before after, (∀ c ∈ before, isBlank c) ∧ (∀ c ∈ after, isBlank c) ∧
      cs = before ++ (trim cs ++ after) := by
  have hfront : cs.takeWhile isBlank ++ cs.dropWhile isBlank = cs :=
    List.takeWhile_append_dropWhile
  have hback : (cs.dropWhile isBlank).reverse.takeWhile isBlank ++
      (cs.dropWhile isBlank).reverse.dropWhile isBlank = (cs.dropWhile isBlank).reverse :=
    List.takeWhile_append_dropWhile
  refine ⟨cs.takeWhile isBlank, ((cs.dropWhile isBlank).reverse.takeWhile isBlank).reverse,
    ?_, ?_, ?_⟩
  · intro c hc
    exact List.mem_takeWhile_imp hc
  · intro c hc
    exact List.mem_takeWhile_imp (List.mem_reverse.1 hc)
  · rw [trim, ← List.reverse_append, hback, List.reverse_reverse, hfront]

/-- What is no blank is not cut off. -/
theorem mem_trim {c : Char} {cs : List Char} (hc : c ∈ cs) (hblank : ¬isBlank c) :
    c ∈ trim cs := by
  obtain ⟨before, after, hb, ha, hcs⟩ := exists_surrounded cs
  rw [hcs, List.mem_append, List.mem_append] at hc
  rcases hc with hc | hc | hc
  · exact absurd (hb c hc) hblank
  · exact hc
  · exact absurd (ha c hc) hblank

/-- To cut blanks off and then read a number is to read a numeral that may have blanks around. -/
theorem readU32_trim_eq_some_iff {n : UInt32} :
    readU32 (String.ofList (trim cs)) = some n ↔
      ∃ before numeral after, (∀ c ∈ before, isBlank c) ∧ (∀ c ∈ after, isBlank c) ∧
        IsNumeral numeral n.toNat ∧ cs = before ++ (numeral ++ after) := by
  rw [readU32_eq_some_iff, String.toList_ofList]
  constructor
  · intro h
    obtain ⟨before, after, hb, ha, hcs⟩ := exists_surrounded cs
    exact ⟨before, trim cs, after, hb, ha, h, hcs⟩
  · rintro ⟨before, numeral, after, hb, ha, h, rfl⟩
    rwa [trim_eq_of_surrounded hb ha h.not_isBlank]

end

/-! ## Integers in text -/

/-- A text is a numeral of an integer: that of a natural number, or a minus sign and digits. -/
inductive IsSignedNumeral : List Char → Int → Prop
  | plain {cs : List Char} {n : Nat} (h : IsNumeral cs n) : IsSignedNumeral cs n
  | minus {ds : List Char} {n : Nat} (hne : ds ≠ []) (hdigits : ∀ c ∈ ds, c.isDigit)
      (hvalue : Nat.ofDigitChars 10 ds 0 = n) : IsSignedNumeral ('-' :: ds) (-n)

section

variable {cs : List Char} {n : Int}

theorem readInt_minus (ds : List Char) :
    readInt ('-' :: ds) = (readDigits ds).map fun n : Nat => -(n : Int) := by
  rw [readInt]
  cases readDigits ds <;> rfl

/-- What is read as an integer is a numeral of it. -/
theorem readInt_eq_some_iff : readInt cs = some n ↔ IsSignedNumeral cs n := by
  by_cases hminus : ∃ ds, cs = '-' :: ds
  · obtain ⟨ds, rfl⟩ := hminus
    simp only [readInt_minus, Option.map_eq_some_iff, readDigits_eq_some_iff]
    constructor
    · rintro ⟨m, ⟨hne, hdigits, hvalue⟩, rfl⟩
      exact .minus hne hdigits hvalue
    · intro h
      cases h with
      | plain h =>
        -- neither a plus sign nor a digit is a minus sign
        obtain ⟨sign, ds', hcs, rfl | rfl, hne, hdigits, -⟩ := h
        · rw [List.nil_append] at hcs
          exact absurd (hdigits '-' (hcs ▸ List.mem_cons_self)) (by decide)
        · cases hcs
      | minus hne hdigits hvalue => exact ⟨_, ⟨hne, hdigits, hvalue⟩, rfl⟩
  · have hplain : readInt cs = (readNat cs).map Int.ofNat := by
      rw [readInt.eq_def]
      split
      · exact absurd ⟨_, rfl⟩ hminus
      · rfl
    simp only [hplain, Option.map_eq_some_iff, readNat_eq_some_iff]
    constructor
    · rintro ⟨m, h, rfl⟩
      exact .plain h
    · intro h
      cases h with
      | plain h => exact ⟨_, h, rfl⟩
      | minus => exact absurd ⟨_, rfl⟩ hminus

theorem readI64_eq_some_iff : readI64 cs = some n ↔ IsSignedNumeral cs n ∧ fitsI64 n := by
  simp only [readI64, Option.bind_eq_some_iff, readInt_eq_some_iff]
  constructor
  · rintro ⟨m, hm, h⟩
    split at h
    · rename_i hfits
      cases h
      exact ⟨hm, hfits⟩
    · cases h
  · rintro ⟨h, hfits⟩
    exact ⟨n, h, if_pos hfits⟩

/-- Only digits and signs stand in a numeral. -/
theorem IsSignedNumeral.chars (h : IsSignedNumeral cs n) :
    ∀ c ∈ cs, c.isDigit ∨ c = '+' ∨ c = '-' := by
  cases h with
  | plain h =>
    obtain ⟨sign, ds, rfl, hsign, -, hdigits, -⟩ := h
    intro c hc
    rcases List.mem_append.1 hc with hc | hc
    · rcases hsign with rfl | rfl
      · cases hc
      · exact .inr (.inl (List.mem_singleton.1 hc))
    · exact .inl (hdigits c hc)
  | minus _ hdigits =>
    intro c hc
    rcases List.mem_cons.1 hc with rfl | hc
    · exact .inr (.inr rfl)
    · exact .inl (hdigits c hc)

theorem IsSignedNumeral.not_isBlank (h : IsSignedNumeral cs n) : ∀ c ∈ cs, ¬isBlank c := by
  intro c hc
  rcases h.chars c hc with hdigit | rfl | rfl
  · exact not_isBlank_of_isTokenChar (isTokenChar_of_isDigit hdigit)
  · decide
  · decide

/-- A numeral is of one integer. -/
theorem IsSignedNumeral.unique {m : Int} (h : IsSignedNumeral cs n) (h' : IsSignedNumeral cs m) :
    n = m :=
  Option.some.inj ((readInt_eq_some_iff.2 h).symm.trans (readInt_eq_some_iff.2 h'))

end

end WorkerBroker
