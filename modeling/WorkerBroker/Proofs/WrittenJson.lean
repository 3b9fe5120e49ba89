import WorkerBroker.Json.Printer
import WorkerBroker.Json.Reader
import WorkerBroker.Proofs.Encoding
/-!
# What is written reads back

The readers of strings and numbers get back what the printer has written. A string stands between
quotes, and whatever its characters are, those that have a meaning there or may not stand there are
escaped (`readText_quoted`). A number ends where its digits do, so what stands behind it must not
continue it; the separators and brackets of JSON text do not (`readNumber_toDigits`).
-/

namespace WorkerBroker

open Utf8 (bytesOf)

/-! ## Strings -/

/-- A byte that stands for itself between quotes. -/
def IsVerbatim (b : UInt8) : Prop :=
  b ≠ 0x22 ∧ b ≠ 0x5c ∧ ¬b < 0x20

section

variable {bound found : Bytes} {c : Char}

theorem readStringBytes_cons {a b : UInt8} {rest : Bytes} (h : IsVerbatim b) :
    readStringBytes (a :: bound) found (b :: rest) = readStringBytes bound (b :: found) rest := by
  rw [readStringBytes, if_neg h.1, if_neg h.2.1, if_neg h.2.2]

theorem readStringBytes_append {bytes rest : Bytes} (h : ∀ b ∈ bytes, IsVerbatim b)
    (hbound : bytes.length ≤ bound.length) :
    readStringBytes bound found (bytes ++ rest) =
      readStringBytes (bound.drop bytes.length) (bytes.reverse ++ found) rest := by
  induction bytes generalizing bound found with
  | nil => rfl
  | cons b bytes ih =>
    cases bound with
    | nil => exact absurd hbound (Nat.not_succ_le_zero _)
    | cons a bound =>
      rw [List.cons_append, readStringBytes_cons (h b List.mem_cons_self),
        ih (fun x hx => h x (List.mem_cons_of_mem b hx)) (Nat.le_of_succ_le_succ hbound)]
      simp

/-- The bytes of a character that is not escaped stand for themselves. -/
theorem isVerbatim_of_mem_encodeChar (hquote : c ≠ '"') (hbackslash : c ≠ '\\')
    (hcontrol : ¬c.toNat < 0x20) {b : UInt8} (hb : b ∈ String.utf8EncodeChar c) :
    IsVerbatim b := by
  have hne : ∀ {n : UInt8}, b.toNat ≠ n.toNat → b ≠ n := fun h heq => h (heq ▸ rfl)
  by_cases hc : c.toNat < 128
  · rw [Utf8.encodeChar_ascii hc, List.mem_singleton] at hb
    have hvalue : b.toNat = c.toNat := by rw [hb, Utf8.toNat_byte (by omega)]
    refine ⟨hne ?_, hne ?_, ?_⟩
    · rw [hvalue]
      exact fun h => hquote (Char.toNat_inj.1 h)
    · rw [hvalue]
      exact fun h => hbackslash (Char.toNat_inj.1 h)
    · rw [UInt8.lt_iff_toNat_lt, hvalue]
      exact hcontrol
  · have hle := Utf8.le_of_mem_encodeChar (Nat.le_of_not_lt hc) b hb
    refine ⟨hne ?_, hne ?_, ?_⟩
    · exact fun h => absurd (h ▸ hle) (by decide)
    · exact fun h => absurd (h ▸ hle) (by decide)
    · rw [UInt8.lt_iff_toNat_lt]
      exact fun h => absurd (Nat.lt_of_le_of_lt hle h) (by decide)

/-- A digit is one byte that reads back as its value. -/
theorem encodeChar_hexDigit : ∀ n < 16,
    ∃ b, String.utf8EncodeChar (hexDigit n) = [b] ∧ hexValue? b = some n := by
  intro n hn
  have hdigits : ∀ n < 16,
      (hexDigit n).toNat < 128 ∧ hexValue? (UInt8.ofNat (hexDigit n).toNat) = some n := by
    decide
  exact ⟨_, Utf8.encodeChar_ascii (hdigits n hn).1, (hdigits n hn).2⟩

/-- A control is escaped by its number. -/
theorem readEscape_numbered (hcontrol : c.toNat < 0x20) (rest : Bytes) :
    readEscape (bytesOf ['u', '0', '0', hexDigit (c.toNat / 16), hexDigit (c.toNat % 16)] ++ rest) =
      .ok (c, rest) := by
  obtain ⟨high, hhigh, hhigh'⟩ := encodeChar_hexDigit (c.toNat / 16) (by omega)
  obtain ⟨low, hlow, hlow'⟩ := encodeChar_hexDigit (c.toNat % 16) (by omega)
  have hbytes : bytesOf ['u', '0', '0', hexDigit (c.toNat / 16), hexDigit (c.toNat % 16)] ++ rest =
      0x75 :: 0x30 :: 0x30 :: high :: low :: rest := by
    simp only [Utf8.bytesOf_cons, hhigh, hlow]
    rfl
  have hnumber : readHex4 (0x30 :: 0x30 :: high :: low :: rest) = .ok (c.toNat, rest) := by
    have hzero : hexValue? 0x30 = some 0 := by decide
    have hvalue : ((0 * 16 + 0) * 16 + c.toNat / 16) * 16 + c.toNat % 16 = c.toNat := by omega
    simp only [readHex4, hzero, hhigh', hlow', hvalue]
  have hlone : ¬(0xdc00 ≤ c.toNat ∧ c.toNat ≤ 0xdfff) := by omega
  have hhalf : c.toNat < 0xd800 ∨ 0xdbff < c.toNat := by omega
  rw [hbytes, readEscape, if_pos rfl, readNumbered, hnumber]
  simp only [if_neg hlone, if_pos hhalf, Char.ofNat_toNat]

/-- A character is written as it is or as a backslash and letters that read back as it. -/
theorem escapedChar_cases (c : Char) :
    (c ≠ '"' ∧ c ≠ '\\' ∧ ¬c.toNat < 0x20 ∧ escapedChar c = [c]) ∨
      ∃ letters, escapedChar c = '\\' :: letters ∧
        ∀ rest, readEscape (bytesOf letters ++ rest) = .ok (c, rest) := by
  have hnamed : ∀ {n : Nat}, c.toNat = n → c = Char.ofNat n := by
    rintro n rfl
    exact (Char.ofNat_toNat c).symm
  fun_cases escapedChar c with
  | case1 h => exact .inr ⟨_, rfl, fun rest => by rw [h]; rfl⟩
  | case2 _ h => exact .inr ⟨_, rfl, fun rest => by rw [h]; rfl⟩
  | case3 _ _ h => exact .inr ⟨_, rfl, fun rest => by rw [hnamed h]; rfl⟩
  | case4 _ _ _ h => exact .inr ⟨_, rfl, fun rest => by rw [hnamed h]; rfl⟩
  | case5 _ _ _ _ h => exact .inr ⟨_, rfl, fun rest => by rw [hnamed h]; rfl⟩
  | case6 _ _ _ _ _ h => exact .inr ⟨_, rfl, fun rest => by rw [hnamed h]; rfl⟩
  | case7 _ _ _ _ _ _ h => exact .inr ⟨_, rfl, fun rest => by rw [hnamed h]; rfl⟩
  | case8 _ _ _ _ _ _ _ h => exact .inr ⟨_, rfl, readEscape_numbered h⟩
  | case9 hquote hbackslash _ _ _ _ _ hcontrol => exact .inl ⟨hquote, hbackslash, hcontrol, rfl⟩

/-- Whatever way a character is written, the reader of a string finds it. -/
theorem readStringBytes_escapedChar {n : Nat} (found rest : Bytes)
    (hbound : (bytesOf (escapedChar c)).length + n ≤ bound.length) :
    ∃ bound', n ≤ bound'.length ∧
      readStringBytes bound found (bytesOf (escapedChar c) ++ rest) =
        readStringBytes bound' ((String.utf8EncodeChar c).reverse ++ found) rest := by
  rcases escapedChar_cases c with ⟨hquote, hbackslash, hcontrol, hchar⟩ | ⟨letters, hchar, hread⟩
  · have hbytes : bytesOf [c] = String.utf8EncodeChar c := List.append_nil _
    rw [hchar, hbytes] at hbound ⊢
    refine ⟨bound.drop (String.utf8EncodeChar c).length, ?_, ?_⟩
    · rw [List.length_drop]
      omega
    · apply readStringBytes_append
      · exact fun b hb => isVerbatim_of_mem_encodeChar hquote hbackslash hcontrol hb
      · omega
  · have hbytes : bytesOf ('\\' :: letters) = 0x5c :: bytesOf letters := rfl
    rw [hchar, hbytes] at hbound ⊢
    cases bound with
    | nil => simp at hbound
    | cons a bound =>
      refine ⟨bound, ?_, ?_⟩
      · simp only [List.length_cons] at hbound
        omega
      · rw [List.cons_append, readStringBytes, if_neg (by decide), if_pos rfl, hread]

/-- The reader of a string finds all characters up to the closing quote. -/
theorem readStringBytes_quoted (cs : List Char) (rest : Bytes)
    (hbound : (bytesOf (cs.flatMap escapedChar) ++ 0x22 :: rest).length ≤ bound.length) :
    readStringBytes bound found (bytesOf (cs.flatMap escapedChar) ++ 0x22 :: rest) =
      .ok (found.reverse ++ bytesOf cs, 0x22 :: rest) := by
  induction cs generalizing bound found with
  | nil =>
    cases bound with
    | nil => simp at hbound
    | cons a bound =>
      rw [List.flatMap_nil, Utf8.bytesOf_nil, List.nil_append, readStringBytes, if_pos rfl,
        List.append_nil]
  | cons c cs ih =>
    rw [List.flatMap_cons, Utf8.bytesOf_append, List.append_assoc] at hbound ⊢
    rw [List.length_append] at hbound
    obtain ⟨bound', hbound', hstep⟩ := readStringBytes_escapedChar found
      (bytesOf (cs.flatMap escapedChar) ++ 0x22 :: rest) hbound
    rw [hstep, ih hbound']
    simp

end

/-- A string reads back from its text, from behind the opening quote. -/
theorem readText_quoted (s : String) (rest : Bytes) :
    readText (bytesOf (s.toList.flatMap escapedChar) ++ 0x22 :: rest) = .ok (s, rest) := by
  rw [readText, readStringBytes_quoted s.toList rest (Nat.le_refl _)]
  simp [Utf8.decode_bytesOf]

/-! ## Numbers -/

/-- What may stand behind a number: nothing, a separator or a closing bracket. -/
def EndsValue (rest : Bytes) : Prop :=
  ∀ b ∈ rest.head?, b = 0x2c ∨ b = 0x5d ∨ b = 0x7d

theorem endsValue_cons {b : UInt8} (h : b = 0x2c ∨ b = 0x5d ∨ b = 0x7d) (rest : Bytes) :
    EndsValue (b :: rest) := by
  rintro _ ⟨⟩
  exact h

section

variable {ds : List Char} {rest : Bytes}

theorem EndsValue.digitOf?_eq_none (h : EndsValue rest) :
    ∀ b ∈ rest.head?, digitOf? b = none := by
  intro b hb
  rcases h b hb with rfl | rfl | rfl <;> decide

/-- The value of a digit. -/
def digitValue (c : Char) : Nat :=
  c.toNat - '0'.toNat

theorem encodeChar_digit {c : Char} (h : c.isDigit) :
    ∃ b, String.utf8EncodeChar c = [b] ∧ (0x30 ≤ b && b ≤ 0x39) ∧
      digitOf? b = some (digitValue c) := by
  have hrange : 48 ≤ c.toNat ∧ c.toNat ≤ 57 := by
    simpa [Char.isDigit, UInt32.le_iff_toNat_le] using h
  have hb : (UInt8.ofNat c.toNat).toNat = c.toNat := Utf8.toNat_byte (by omega)
  have hdigit : (0x30 ≤ UInt8.ofNat c.toNat && UInt8.ofNat c.toNat ≤ 0x39) = true := by
    simp only [Bool.and_eq_true, decide_eq_true_eq, UInt8.le_iff_toNat_le, hb]
    exact hrange
  refine ⟨_, Utf8.encodeChar_ascii (by omega), hdigit, ?_⟩
  rw [digitOf?, if_pos hdigit, hb]
  rfl

theorem spanDigits_go (hall : ∀ c ∈ ds, c.isDigit) (hrest : EndsValue rest) (found : List Nat) :
    spanDigits.go found (bytesOf ds ++ rest) = (found.reverse ++ ds.map digitValue, rest) := by
  induction ds generalizing found with
  | nil =>
    cases rest with
    | nil => simp [spanDigits.go]
    | cons b rest => simp [spanDigits.go, hrest.digitOf?_eq_none b rfl]
  | cons c ds ih =>
    obtain ⟨b, hb, -, hdigit⟩ := encodeChar_digit (hall c List.mem_cons_self)
    rw [Utf8.bytesOf_cons, hb, List.cons_append, List.nil_append, List.cons_append, spanDigits.go,
      hdigit]
    simp [ih fun x hx => hall x (List.mem_cons_of_mem c hx)]

theorem readSomeDigits_append (hne : ds ≠ []) (hall : ∀ c ∈ ds, c.isDigit)
    (hrest : EndsValue rest) :
    readSomeDigits (bytesOf ds ++ rest) = .ok (ds.map digitValue, rest) := by
  rw [readSomeDigits, spanDigits, spanDigits_go hall hrest []]
  cases ds with
  | nil => exact absurd rfl hne
  | cons c ds => rfl

theorem le_foldl_digits (ds : List Nat) (n : Nat) : n ≤ ds.foldl (fun n d => 10 * n + d) n := by
  induction ds generalizing n with
  | nil => exact Nat.le_refl n
  | cons d ds ih => exact Nat.le_trans (by omega) (ih (10 * n + d))

/-- Digits whose number has 64 bits are all kept. -/
theorem appendDigits_eq {ds : List Nat} {n : Nat}
    (h : ds.foldl (fun n d => 10 * n + d) n < UInt64.size) :
    appendDigits n ds = (ds.foldl (fun n d => 10 * n + d) n, []) := by
  induction ds generalizing n with
  | nil => rfl
  | cons d ds ih =>
    have hd : 10 * n + d < UInt64.size := Nat.lt_of_le_of_lt (le_foldl_digits ds _) h
    rw [appendDigits, if_pos hd, ih h]
    rfl

theorem foldl_digitValue (cs : List Char) (n : Nat) :
    (cs.map digitValue).foldl (fun n d => 10 * n + d) n = Nat.ofDigitChars 10 cs n := by
  rw [List.foldl_map]
  rfl

/-- Only the number 0 is written with a 0 in front. -/
theorem head?_digits_ne_zero {n : Nat} (h : 0 < n) :
    ((Nat.toDigits 10 n).map digitValue).head? ≠ some 0 := by
  induction n using Nat.strongRecOn with
  | ind n ih =>
    rcases Nat.lt_or_ge n 10 with hlt | hge
    · have hone : ∀ n : Nat, n < 10 → 0 < n →
          ([n.digitChar].map digitValue).head? ≠ some 0 := by decide
      rw [Nat.toDigits_of_lt_base hlt]
      exact hone n hlt h
    · have hfront := ih (n / 10) (by omega) (by omega)
      have hne : Nat.toDigits 10 (n / 10) ≠ [] := Nat.toDigits_ne_nil
      obtain ⟨c, cs, hcs⟩ := List.exists_cons_of_ne_nil hne
      rw [Nat.toDigits_of_base_le (by omega) hge, hcs]
      rwa [hcs] at hfront

theorem readWhole_toDigits (n : Nat) (hrest : EndsValue rest) :
    readWhole (bytesOf (Nat.toDigits 10 n) ++ rest) =
      .ok ((Nat.toDigits 10 n).map digitValue, rest) := by
  have hall : ∀ c ∈ Nat.toDigits 10 n, c.isDigit := fun c hc =>
    Nat.isDigit_of_mem_toDigits (by omega) (by omega) hc
  rw [readWhole, readSomeDigits_append Nat.toDigits_ne_nil hall hrest]
  split
  · rename_i hdigits
    simp only [Except.ok.injEq, Prod.mk.injEq] at hdigits
    rcases Nat.eq_zero_or_pos n with rfl | hn
    · cases hdigits.1
    · exact absurd (congrArg List.head? hdigits.1) (head?_digits_ne_zero hn)
  · rfl

theorem readFraction_of_ends (hrest : EndsValue rest) : readFraction rest = .ok (none, rest) := by
  cases rest with
  | nil => rfl
  | cons b rest => rcases hrest b rfl with rfl | rfl | rfl <;> rfl

theorem readExponent_of_ends (hrest : EndsValue rest) : readExponent rest = .ok (none, rest) := by
  cases rest with
  | nil => rfl
  | cons b rest => rcases hrest b rfl with rfl | rfl | rfl <;> rfl

end

/-- The text of a number starts with a digit. -/
theorem exists_digit_toDigits (n : Nat) :
    ∃ b tail, bytesOf (Nat.toDigits 10 n) = b :: tail ∧ (0x30 ≤ b && b ≤ 0x39) := by
  have hne : Nat.toDigits 10 n ≠ [] := Nat.toDigits_ne_nil
  obtain ⟨c, cs, hcs⟩ := List.exists_cons_of_ne_nil hne
  have hc : c.isDigit :=
    Nat.isDigit_of_mem_toDigits (by omega) (by omega) (hcs ▸ List.mem_cons_self)
  obtain ⟨b, hb, hdigit, -⟩ := encodeChar_digit hc
  exact ⟨b, bytesOf cs, by rw [hcs, Utf8.bytesOf_cons, hb, List.singleton_append], hdigit⟩

/-- A number of 64 bits reads back from its decimal text, whatever may follow a value. -/
theorem readNumber_toDigits {n : Nat} (hn : n < UInt64.size) {rest : Bytes}
    (hrest : EndsValue rest) :
    readNumber false (bytesOf (Nat.toDigits 10 n) ++ rest) = .ok (.int n, rest) := by
  have hliteral : readLiteral false (bytesOf (Nat.toDigits 10 n) ++ rest) =
      .ok (⟨false, (Nat.toDigits 10 n).map digitValue, none, none⟩, rest) := by
    rw [readLiteral, readWhole_toDigits n hrest]
    simp only [readFraction_of_ends hrest, readExponent_of_ends hrest]
  have hnumber : ((Nat.toDigits 10 n).map digitValue).foldl (fun n d => 10 * n + d) 0 = n := by
    rw [foldl_digitValue, Nat.ofDigitChars_ten_toDigits]
  have hkept : appendDigits 0 ((Nat.toDigits 10 n).map digitValue) = (n, []) := by
    rw [appendDigits_eq (hnumber.symm ▸ hn), hnumber]
  have hvalue : NumberLiteral.value ⟨false, (Nat.toDigits 10 n).map digitValue, none, none⟩
      rest = .ok (.int n) := by
    simp [NumberLiteral.value, hkept, integerValue?]
  rw [readNumber, hliteral]
  simp only [hvalue]
  rfl

/-! ## Arrays and objects -/

theorem skipBlanks_cons {b : UInt8} (h : ¬isJsonBlank b) (rest : Bytes) :
    skipBlanks (b :: rest) = b :: rest :=
  List.dropWhile_cons_of_neg h

theorem bytesOf_commaSeparated (p q : List Char) (ps : List (List Char)) :
    bytesOf (commaSeparated (p :: q :: ps)) =
      bytesOf p ++ 0x2c :: bytesOf (commaSeparated (q :: ps)) := by
  rw [commaSeparated.eq_3 _ _ (List.cons_ne_nil q ps), Utf8.bytesOf_append]
  rfl

theorem bytesOf_arrayText (ps : List (List Char)) :
    bytesOf (arrayText ps) = 0x5b :: (bytesOf (commaSeparated ps) ++ [0x5d]) := by
  rw [arrayText, Utf8.bytesOf_append]
  rfl

theorem length_le_bytesOf_commaSeparated (p : List Char) (ps : List (List Char)) :
    ps.length ≤ (bytesOf (commaSeparated (p :: ps))).length := by
  induction ps generalizing p with
  | nil => exact Nat.zero_le _
  | cons q ps ih =>
    have := ih q
    rw [bytesOf_commaSeparated]
    simp only [List.length_append, List.length_cons]
    omega

/-- A member of an object, from behind the opening quote of its name. -/
def memberBytes (name : String) (value : List Char) (rest : Bytes) : Bytes :=
  bytesOf (name.toList.flatMap escapedChar) ++ 0x22 :: 0x3a :: (bytesOf value ++ rest)

theorem bytesOf_objectText (name name' : String) (p q : List Char) (rest : Bytes) :
    bytesOf (objectText [(name, p), (name', q)]) ++ rest =
      0x7b :: 0x22 :: memberBytes name p (0x2c :: 0x22 :: memberBytes name' q (0x7d :: rest)) := by
  have hquote : String.utf8EncodeChar '"' = [0x22] := rfl
  have hcolon : String.utf8EncodeChar ':' = [0x3a] := rfl
  have hcomma : String.utf8EncodeChar ',' = [0x2c] := rfl
  have hopen : String.utf8EncodeChar '{' = [0x7b] := rfl
  have hclose : String.utf8EncodeChar '}' = [0x7d] := rfl
  simp [objectText, commaSeparated, quoted, memberBytes, hquote, hcolon, hcomma, hopen, hclose]

end WorkerBroker
