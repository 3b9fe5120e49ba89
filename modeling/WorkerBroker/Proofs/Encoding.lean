import WorkerBroker.Text.Utf8
/-!
# Text as bytes

A text is written as UTF-8, one to four bytes for each character. The reader of bytes meets the
characters again, one piece for each (`take_encodeChar`), whatever stands behind them, so a text
reads back from its bytes (`decode_bytesOf`). The reader takes nothing else for a character
(`eq_of_take`), so what reads as a text is the bytes of that text (`decode_eq_some_iff`).

By the first two bytes of a character the reader refuses forms that are longer than they must be,
surrogates, and what lies above U+10FFFF. No character is written so, which is where the bounds of a
character's number come in.
-/

namespace WorkerBroker

namespace Utf8

/-! ## The pieces that a character may be -/

section

variable {lead b c d : UInt8} {rest : Bytes}

theorem isContinuation_iff : isContinuation b ↔ 128 ≤ b.toNat ∧ b.toNat ≤ 191 := by
  simp [isContinuation, UInt8.le_iff_toNat_le]

theorem secondOfThree_iff : secondOfThree lead b ↔
    128 ≤ b.toNat ∧ b.toNat ≤ 191 ∧ (lead.toNat = 224 → 160 ≤ b.toNat) ∧
      (lead.toNat = 237 → b.toNat ≤ 159) := by
  simp only [secondOfThree, beq_iff_eq, ← UInt8.toNat_inj]
  split
  · simp [UInt8.le_iff_toNat_le, *]
    omega
  · split
    · simp [UInt8.le_iff_toNat_le, *]
      omega
    · rw [isContinuation_iff]
      simp at *
      omega

theorem secondOfFour_iff : secondOfFour lead b ↔
    128 ≤ b.toNat ∧ b.toNat ≤ 191 ∧ (lead.toNat = 240 → 144 ≤ b.toNat) ∧
      (lead.toNat = 244 → b.toNat ≤ 143) := by
  simp only [secondOfFour, beq_iff_eq, ← UInt8.toNat_inj]
  split
  · simp [UInt8.le_iff_toNat_le, *]
    omega
  · split
    · simp [UInt8.le_iff_toNat_le, *]
      omega
    · rw [isContinuation_iff]
      simp at *
      omega

theorem take_one (h : lead.toNat < 128) : take lead rest = .char (Char.ofNat lead.toNat) rest :=
  if_pos (UInt8.lt_iff_toNat_lt.2 h)

theorem take_two (h : 194 ≤ lead.toNat ∧ lead.toNat ≤ 223) (hb : isContinuation b) :
    take lead (b :: rest) =
      .char (Char.ofNat ((lead.toNat - 192) * 64 + payload b)) rest := by
  have h1 : ¬lead < 0x80 := by simp [UInt8.lt_iff_toNat_lt]; omega
  have h2 : (0xc2 ≤ lead && lead ≤ 0xdf) = true := by simp [UInt8.le_iff_toNat_le]; omega
  unfold take
  rw [if_neg h1, if_pos h2]
  exact if_pos hb

theorem take_three (h : 224 ≤ lead.toNat ∧ lead.toNat ≤ 239) (hb : secondOfThree lead b)
    (hc : isContinuation c) :
    take lead (b :: c :: rest) =
      .char (Char.ofNat (((lead.toNat - 224) * 64 + payload b) * 64 + payload c)) rest := by
  have h1 : ¬lead < 0x80 := by simp [UInt8.lt_iff_toNat_lt]; omega
  have h2 : ¬(0xc2 ≤ lead && lead ≤ 0xdf) = true := by simp [UInt8.le_iff_toNat_le]; omega
  have h3 : (0xe0 ≤ lead && lead ≤ 0xef) = true := by simp [UInt8.le_iff_toNat_le]; omega
  unfold take
  rw [if_neg h1, if_neg h2, if_pos h3]
  simp [hb, hc]

theorem take_four (h : 240 ≤ lead.toNat ∧ lead.toNat ≤ 244) (hb : secondOfFour lead b)
    (hc : isContinuation c) (hd : isContinuation d) :
    take lead (b :: c :: d :: rest) =
      .char (Char.ofNat ((((lead.toNat - 240) * 64 + payload b) * 64 + payload c) * 64 +
        payload d)) rest := by
  have h1 : ¬lead < 0x80 := by simp [UInt8.lt_iff_toNat_lt]; omega
  have h2 : ¬(0xc2 ≤ lead && lead ≤ 0xdf) = true := by simp [UInt8.le_iff_toNat_le]; omega
  have h3 : ¬(0xe0 ≤ lead && lead ≤ 0xef) = true := by simp [UInt8.le_iff_toNat_le]; omega
  have h4 : (0xf0 ≤ lead && lead ≤ 0xf4) = true := by simp [UInt8.le_iff_toNat_le]; omega
  unfold take
  rw [if_neg h1, if_neg h2, if_neg h3, if_pos h4]
  simp [hb, hc, hd]

end

/-! ## Characters -/

theorem toNat_byte {n : Nat} (h : n < 256) : (UInt8.ofNat n).toNat = n := by
  rw [UInt8.toNat_ofNat']
  omega

theorem toNat_continuation (n : Nat) : (UInt8.ofNat (n % 64 + 128)).toNat = n % 64 + 128 :=
  toNat_byte (by omega)

theorem isContinuation_ofNat (n : Nat) : isContinuation (UInt8.ofNat (n % 64 + 128)) := by
  rw [isContinuation_iff, toNat_continuation]
  omega

theorem payload_ofNat (n : Nat) : payload (UInt8.ofNat (n % 64 + 128)) = n % 64 := by
  rw [payload, toNat_continuation]
  omega

/-- The piece in front of the bytes of a character is the character. -/
theorem take_encodeChar (c : Char) (rest : Bytes) :
    ∃ lead tail, String.utf8EncodeChar c ++ rest = lead :: tail ∧
      take lead tail = .char c rest := by
  have hvalid : c.toNat < 0xd800 ∨ 0xdfff < c.toNat ∧ c.toNat < 0x110000 := c.valid
  fun_cases String.utf8EncodeChar c with
  | case1 v h =>
    have hlead : (UInt8.ofNat v).toNat = c.toNat := toNat_byte (by omega)
    have hone : (UInt8.ofNat v).toNat < 128 := hlead ▸ Nat.lt_succ_of_le h
    refine ⟨_, rest, rfl, ?_⟩
    rw [take_one hone, hlead, Char.ofNat_toNat]
  | case2 v h1 h2 =>
    have hv : v = c.toNat := rfl
    have hlead : (UInt8.ofNat (v / 64 % 32 + 192)).toNat = v / 64 + 192 := by
      rw [toNat_byte (by omega)]
      omega
    have hvalue : (v / 64 + 192 - 192) * 64 + v % 64 = c.toNat := by omega
    refine ⟨_, _ :: rest, rfl, ?_⟩
    rw [take_two (by omega) (isContinuation_ofNat v), hlead, payload_ofNat, hvalue,
      Char.ofNat_toNat]
  | case3 v h1 h2 h3 =>
    have hv : v = c.toNat := rfl
    have hlead : (UInt8.ofNat (v / 4096 % 16 + 224)).toNat = v / 4096 + 224 := by
      rw [toNat_byte (by omega)]
      omega
    -- no surrogate, and too large for two bytes
    have hsecond : secondOfThree (UInt8.ofNat (v / 4096 % 16 + 224))
        (UInt8.ofNat (v / 64 % 64 + 128)) := by
      rw [secondOfThree_iff, hlead, toNat_continuation]
      omega
    have hvalue : ((v / 4096 + 224 - 224) * 64 + v / 64 % 64) * 64 + v % 64 = c.toNat := by omega
    refine ⟨_, _ :: _ :: rest, rfl, ?_⟩
    rw [take_three (by omega) hsecond (isContinuation_ofNat v), hlead, payload_ofNat,
      payload_ofNat, hvalue, Char.ofNat_toNat]
  | case4 v h1 h2 h3 =>
    have hv : v = c.toNat := rfl
    have hlead : (UInt8.ofNat (v / 262144 % 8 + 240)).toNat = v / 262144 + 240 := by
      rw [toNat_byte (by omega)]
      omega
    -- at most U+10FFFF, and too large for three bytes
    have hsecond : secondOfFour (UInt8.ofNat (v / 262144 % 8 + 240))
        (UInt8.ofNat (v / 4096 % 64 + 128)) := by
      rw [secondOfFour_iff, hlead, toNat_continuation]
      omega
    have hvalue : (((v / 262144 + 240 - 240) * 64 + v / 4096 % 64) * 64 + v / 64 % 64) * 64 +
        v % 64 = c.toNat := by omega
    refine ⟨_, _ :: _ :: _ :: rest, rfl, ?_⟩
    rw [take_four (by omega) hsecond (isContinuation_ofNat _) (isContinuation_ofNat v), hlead,
      payload_ofNat, payload_ofNat, payload_ofNat, hvalue, Char.ofNat_toNat]

/-! ## Pieces that are characters -/

section

variable {lead b c d : UInt8} {rest : Bytes}

theorem toNat_val_ofNat {n : Nat} (h : n.isValidChar) : (Char.ofNat n).val.toNat = n := by
  rw [Char.ofNat, dif_pos h]
  rfl

theorem ofNat_eq {n : Nat} {b : UInt8} (h : n = b.toNat) : UInt8.ofNat n = b := by
  rw [h, UInt8.ofNat_toNat]

theorem encodeChar_one (h : lead.toNat < 128) :
    String.utf8EncodeChar (Char.ofNat lead.toNat) = [lead] := by
  have hval : (Char.ofNat lead.toNat).val.toNat = lead.toNat := toNat_val_ofNat (.inl (by omega))
  simp only [String.utf8EncodeChar, hval]
  rw [if_pos (by omega), UInt8.ofNat_toNat]

theorem encodeChar_two (h : 194 ≤ lead.toNat ∧ lead.toNat ≤ 223) (hb : isContinuation b) :
    String.utf8EncodeChar (Char.ofNat ((lead.toNat - 192) * 64 + payload b)) = [lead, b] := by
  rw [isContinuation_iff] at hb
  have hvalid : ((lead.toNat - 192) * 64 + b.toNat % 64).isValidChar := .inl (by omega)
  unfold payload
  simp only [String.utf8EncodeChar, toNat_val_ofNat hvalid]
  rw [if_neg (by omega), if_pos (by omega), ofNat_eq (b := lead) (by omega),
    ofNat_eq (b := b) (by omega)]

theorem encodeChar_three (h : 224 ≤ lead.toNat ∧ lead.toNat ≤ 239) (hb : secondOfThree lead b)
    (hc : isContinuation c) :
    String.utf8EncodeChar
        (Char.ofNat (((lead.toNat - 224) * 64 + payload b) * 64 + payload c)) = [lead, b, c] := by
  rw [secondOfThree_iff] at hb
  rw [isContinuation_iff] at hc
  -- no surrogate, by the second byte
  have hvalid : (((lead.toNat - 224) * 64 + b.toNat % 64) * 64 + c.toNat % 64).isValidChar := by
    rw [Nat.isValidChar]
    omega
  unfold payload
  simp only [String.utf8EncodeChar, toNat_val_ofNat hvalid]
  rw [if_neg (by omega), if_neg (by omega), if_pos (by omega), ofNat_eq (b := lead) (by omega),
    ofNat_eq (b := b) (by omega), ofNat_eq (b := c) (by omega)]

theorem encodeChar_four (h : 240 ≤ lead.toNat ∧ lead.toNat ≤ 244) (hb : secondOfFour lead b)
    (hc : isContinuation c) (hd : isContinuation d) :
    String.utf8EncodeChar (Char.ofNat ((((lead.toNat - 240) * 64 + payload b) * 64 + payload c) * 64
      + payload d)) = [lead, b, c, d] := by
  rw [secondOfFour_iff] at hb
  rw [isContinuation_iff] at hc hd
  -- at most U+10FFFF, by the second byte
  have hvalid : ((((lead.toNat - 240) * 64 + b.toNat % 64) * 64 + c.toNat % 64) * 64
      + d.toNat % 64).isValidChar := by
    rw [Nat.isValidChar]
    omega
  unfold payload
  simp only [String.utf8EncodeChar, toNat_val_ofNat hvalid]
  rw [if_neg (by omega), if_neg (by omega), if_neg (by omega), ofNat_eq (b := lead) (by omega),
    ofNat_eq (b := b) (by omega), ofNat_eq (b := c) (by omega), ofNat_eq (b := d) (by omega)]

/-- What is read as a character is its bytes. -/
theorem eq_of_take {behind : Bytes} {x : Char} :
    take lead rest = .char x behind → lead :: rest = String.utf8EncodeChar x ++ behind := by
  fun_cases take lead rest with
  | case1 _ hone =>
    rintro ⟨⟩
    rw [encodeChar_one (UInt8.lt_iff_toNat_lt.1 hone)]
    rfl
  | case2 _ htwo b tail hb =>
    rintro ⟨⟩
    rw [encodeChar_two (by simpa [UInt8.le_iff_toNat_le] using htwo) hb]
    rfl
  | case6 _ _ hthree b hb c tail hc =>
    rintro ⟨⟩
    rw [encodeChar_three (by simpa [UInt8.le_iff_toNat_le] using hthree) (by simpa using hb) hc]
    rfl
  | case12 _ _ _ hfour b hb c hc d tail hd =>
    rintro ⟨⟩
    rw [encodeChar_four (by simpa [UInt8.le_iff_toNat_le] using hfour) (by simpa using hb)
      (by simpa using hc) hd]
    rfl
  | _ => exact nofun

end

/-! ## Texts -/

/-- The bytes of characters. -/
def bytesOf (cs : List Char) : Bytes :=
  cs.flatMap String.utf8EncodeChar

@[simp]
theorem bytesOf_nil : bytesOf [] = [] := rfl

@[simp]
theorem bytesOf_cons (c : Char) (cs : List Char) :
    bytesOf (c :: cs) = String.utf8EncodeChar c ++ bytesOf cs := rfl

@[simp]
theorem bytesOf_append (cs ds : List Char) : bytesOf (cs ++ ds) = bytesOf cs ++ bytesOf ds :=
  List.flatMap_append

theorem encode_ofList (cs : List Char) : encode (String.ofList cs) = bytesOf cs := by
  rw [encode, bytesOf, String.toList_ofList]

/-- A character below U+0080 is one byte. -/
theorem encodeChar_ascii {c : Char} (h : c.toNat < 128) :
    String.utf8EncodeChar c = [UInt8.ofNat c.toNat] :=
  if_pos (Nat.le_of_lt_succ h)

/-- The bytes of a character from U+0080 on lie from 0x80 on. -/
theorem le_of_mem_encodeChar {c : Char} (hc : 128 ≤ c.toNat) :
    ∀ b ∈ String.utf8EncodeChar c, 128 ≤ b.toNat := by
  fun_cases String.utf8EncodeChar c with
  | case1 v h => exact absurd (Nat.lt_succ_of_le h) (Nat.not_lt.2 hc)
  | case2 v | case3 v | case4 v =>
    simp only [List.forall_mem_cons, List.not_mem_nil, false_implies, implies_true, and_true]
    repeat rw [toNat_byte (by omega)]
    omega

theorem pieces_go (bytes : Bytes) (found : List Piece) :
    pieces.go bytes found = found.reverse ++ pieces bytes := by
  induction h : bytes.length using Nat.strongRecOn generalizing bytes found with
  | ind n ih =>
    cases bytes with
    | nil => simp [pieces, pieces.go]
    | cons b rest =>
      have hlt : (take b rest).rest.length < n := by
        have := take_rest_le b rest
        rw [List.length_cons] at h
        omega
      rw [pieces, pieces.go, pieces.go, ih _ hlt _ _ rfl, ih _ hlt _ [_] rfl]
      simp

theorem pieces_nil : pieces [] = [] := by
  rw [pieces, pieces.go, List.reverse_nil]

theorem pieces_cons (b : UInt8) (rest : Bytes) :
    pieces (b :: rest) = take b rest :: pieces (take b rest).rest := by
  rw [pieces, pieces.go, pieces_go]
  rfl

/-- The first piece in front of some bytes is the character these bytes are of. -/
theorem pieces_encodeChar (c : Char) (bytes : Bytes) :
    pieces (String.utf8EncodeChar c ++ bytes) = .char c bytes :: pieces bytes := by
  obtain ⟨lead, tail, hbytes, htake⟩ := take_encodeChar c bytes
  rw [hbytes, pieces_cons, htake]
  rfl

/-- The pieces in front of some bytes are the characters these bytes are of. -/
theorem map_char?_pieces (cs : List Char) (bytes : Bytes) :
    (pieces (bytesOf cs ++ bytes)).map Piece.char? =
      cs.map some ++ (pieces bytes).map Piece.char? := by
  induction cs with
  | nil => rfl
  | cons c cs ih =>
    rw [bytesOf_cons, List.append_assoc, pieces_encodeChar, List.map_cons, List.map_cons,
      List.cons_append]
    exact congrArg _ ih

/-- Characters read back from their bytes. -/
theorem decode_bytesOf (cs : List Char) : decode (bytesOf cs) = some cs := by
  have h : (pieces (bytesOf cs)).map Piece.char? = cs.map some := by
    simpa [pieces_nil] using map_char?_pieces cs []
  calc decode (bytesOf cs)
      _ = ((pieces (bytesOf cs)).map Piece.char?).mapM id := by rw [List.mapM_map]; rfl
      _ = (cs.map some).mapM id := by rw [h]
      _ = cs.mapM pure := List.mapM_map
      _ = some cs := by rw [List.mapM_pure, List.map_id']; rfl

/-- Bytes that read as characters start with the first of these. -/
theorem exists_of_decode_cons {b : UInt8} {rest : Bytes} {cs : List Char}
    (h : decode (b :: rest) = some cs) :
    ∃ c behind ds, take b rest = .char c behind ∧ decode behind = some ds ∧ cs = c :: ds := by
  rw [decode, pieces_cons, List.mapM_cons] at h
  rcases htake : take b rest with ⟨c, behind⟩ | behind <;> rw [htake] at h
  · obtain ⟨_, ⟨⟩, h⟩ := Option.bind_eq_some_iff.1 h
    obtain ⟨ds, hds, hcs⟩ := Option.bind_eq_some_iff.1 h
    exact ⟨c, behind, ds, rfl, hds, (Option.some.inj hcs).symm⟩
  · cases h

/-- The bytes that read as characters are those of the characters. -/
theorem decode_eq_some_iff {bytes : Bytes} {cs : List Char} :
    decode bytes = some cs ↔ bytes = bytesOf cs := by
  constructor
  · intro h
    induction cs generalizing bytes with
    | nil =>
      cases bytes with
      | nil => rfl
      | cons b rest =>
        obtain ⟨c, behind, ds, -, -, hcs⟩ := exists_of_decode_cons h
        cases hcs
    | cons c cs ih =>
      cases bytes with
      | nil => cases (decode_bytesOf []).symm.trans h
      | cons b rest =>
        obtain ⟨_, behind, _, htake, hbehind, ⟨⟩⟩ := exists_of_decode_cons h
        rw [eq_of_take htake, ih hbehind, bytesOf_cons]
  · rintro rfl
    exact decode_bytesOf cs

end Utf8

end WorkerBroker
