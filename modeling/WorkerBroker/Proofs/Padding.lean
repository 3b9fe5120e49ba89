import WorkerBroker.Proofs.Encoding
import WorkerBroker.Proofs.Judgements
/-!
# NULs in replies

A worker may pad a reply with NUL bytes, behind it as in a fixed buffer, but also in front of it and
anywhere between two characters (`Utf8.Padded`). Nothing of that can be seen in what the reply comes
to (`nul_padding_unseen`).

The reply is read as UTF-8 first, and NULs are dropped as characters only then. What carries the
proof is that a NUL byte and the bytes of a character are read alike whatever stands behind them
(`Utf8.pieces_encodeChar`), so the padding leaves the characters of the reply as they are. JSON is
read after that, so a NUL may as well stand inside of a string, a word, a number or an escape.
-/

namespace WorkerBroker

namespace Utf8

/-- Bytes of characters, with any number of NUL bytes in front of each and behind the last. -/
inductive Padded : List Char → Bytes → Prop
  | nil : Padded [] []
  | nul {cs : List Char} {bytes : Bytes} (h : Padded cs bytes) : Padded cs (0 :: bytes)
  | char {cs : List Char} {bytes : Bytes} (c : Char) (h : Padded cs bytes) :
      Padded (c :: cs) (String.utf8EncodeChar c ++ bytes)

/-- The padding may be missing. -/
theorem padded_bytesOf (cs : List Char) : Padded cs (bytesOf cs) := by
  induction cs with
  | nil => exact .nil
  | cons c cs ih => exact .char c ih

theorem decodeLossy_nil : decodeLossy [] = [] := by
  rw [decodeLossy, pieces_nil, List.map_nil]

theorem decodeLossy_encodeChar (c : Char) (bytes : Bytes) :
    decodeLossy (String.utf8EncodeChar c ++ bytes) = c :: decodeLossy bytes := by
  rw [decodeLossy, pieces_encodeChar]
  rfl

/-- A NUL byte is a character. -/
theorem decodeLossy_nul (bytes : Bytes) :
    decodeLossy (0 :: bytes) = Char.ofNat 0 :: decodeLossy bytes :=
  decodeLossy_encodeChar (Char.ofNat 0) bytes

end Utf8

/-! ## What is left of a text -/

/-- The text of characters without NULs. -/
def bareText (cs : List Char) : String :=
  String.ofList (cs.filter fun c => c.toNat ≠ 0)

theorem replyText_eq (raw : Bytes) : replyText raw = bareText (Utf8.decodeLossy raw) := rfl

/-- The text of a reply is that of its characters, whatever the padding. -/
theorem replyText_of_padded {cs : List Char} {bytes : Bytes} (h : Utf8.Padded cs bytes) :
    replyText bytes = bareText cs := by
  have hfilter : (Utf8.decodeLossy bytes).filter (fun c => c.toNat ≠ 0) =
      cs.filter fun c => c.toNat ≠ 0 := by
    induction h with
    | nil => rw [Utf8.decodeLossy_nil]
    | nul _ ih => rw [Utf8.decodeLossy_nul, List.filter_cons_of_neg (by decide), ih]
    | char c _ ih => rw [Utf8.decodeLossy_encodeChar, List.filter_cons, List.filter_cons, ih]
  rw [replyText_eq, bareText, bareText, hfilter]

/-- NUL padding cannot be seen: a reply that reads as characters, and the bytes of these characters
with any number of NUL bytes in between, in front and behind, come to the same. If the text without
its NULs is JSON, they come to that value, or are rejected with the message of the error that it
reports and with the value itself. Otherwise they come to that text. -/
theorem nul_padding_unseen {raw padded : Bytes} {cs : List Char}
    (hraw : Utf8.decode raw = some cs) (hpadded : Utf8.Padded cs padded) :
    raw = Utf8.bytesOf cs ∧ decodeReply padded = decodeReply raw ∧
      (∀ v, Json.read (Utf8.encode (bareText cs)) = .ok v →
        reportedError v = none ∧ decodeReply padded = .ok v ∨
          ∃ detail, reportedError v = some detail ∧
            decodeReply padded = .error (.rejected detail v)) ∧
      ((∀ v, Json.read (Utf8.encode (bareText cs)) ≠ .ok v) →
        decodeReply padded = .ok (.string (bareText cs))) := by
  have hbytes : raw = Utf8.bytesOf cs := Utf8.decode_eq_some_iff.1 hraw
  have htext : replyText padded = bareText cs := replyText_of_padded hpadded
  have htext' : replyText raw = bareText cs :=
    replyText_of_padded (hbytes ▸ Utf8.padded_bytesOf cs)
  refine ⟨hbytes, decodeReply_congr (htext.trans htext'.symm), fun v hread => ?_, fun hplain => ?_⟩
  · rw [← htext] at hread
    rw [decodeReply_of_read hread]
    rcases judgeReply_cases v with ⟨detail, hsome, hjudge⟩ | hvalue
    · exact .inr ⟨detail, hsome, hjudge⟩
    · exact .inl hvalue
  · rw [← htext] at hplain ⊢
    exact decodeReply_of_plain hplain

/-- A refusal with characters of one up to four bytes, and an escape for the character NUL. -/
def refusal : Json :=
  .ofMembers [("result", .string "error"),
    ("error_details", .ofMembers [("message", .string "é\u0000€😀")])]

/-- Bytes of characters with a NUL byte in front of each and two behind the last. -/
def nulsBetween (cs : List Char) : Bytes :=
  cs.flatMap (fun c => 0 :: String.utf8EncodeChar c) ++ [0, 0]

theorem padded_nulsBetween (cs : List Char) : Utf8.Padded cs (nulsBetween cs) := by
  induction cs with
  | nil => exact .nul (.nul .nil)
  | cons c cs ih =>
    rw [nulsBetween, List.flatMap_cons, List.append_assoc]
    exact .nul (.char c ih)

/-- NULs do not hide a refusal: its detail comes out, with the NUL that the worker wrote as an escape
and without those around it. -/
theorem nul_padding_unseen_in_refusal :
    Utf8.decode refusal.bytes = some refusal.text.toList ∧
      Utf8.Padded refusal.text.toList (nulsBetween refusal.text.toList) ∧
      decodeReply (nulsBetween refusal.text.toList) = decodeReply refusal.bytes ∧
      ∃ v, decodeReply (nulsBetween refusal.text.toList) = .error (.rejected "é\u0000€😀" v) := by
  have hraw : Utf8.decode refusal.bytes = some refusal.text.toList := Utf8.decode_bytesOf _
  have hpadded := padded_nulsBetween refusal.text.toList
  obtain ⟨-, hsame, hvalue, -⟩ := nul_padding_unseen hraw hpadded
  obtain ⟨v, hread, hreported⟩ := exists_of_read (nulsBetween refusal.text.toList)
    (fun v => reportedError v = some "é\u0000€😀") (by decide +kernel)
  rw [replyText_of_padded hpadded] at hread
  refine ⟨hraw, hpadded, hsame, v, ?_⟩
  rcases hvalue v hread with ⟨hnone, -⟩ | ⟨detail, hsome, hrejected⟩
  · cases hnone.symm.trans hreported
  · cases hsome.symm.trans hreported
    exact hrejected

end WorkerBroker
