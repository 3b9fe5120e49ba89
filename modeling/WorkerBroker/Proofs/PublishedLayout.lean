import WorkerBroker.Http.Gateway
import WorkerBroker.Lcore.Helper
import WorkerBroker.Proofs.WrittenJson
/-!
# The published layout

A helper tells the broker the layout as JSON text, and the broker publishes the layout it knows as
JSON text. The reader of the one understands what the writer of the other has written, for a layout
of any size: a program that prints what a broker publishes is a helper, and tells the layout of that
broker.

Reader and writer agree on one shape after the other. `ReadsBack` says that a reader of one item
gets back what was written, and leaves what is behind it. Numbers are read back; if items are,
lists of them are (`ReadsBack.list`) and records of two (`ReadsBack.record`), so cores, sockets and
layouts follow from how they are put together.
-/

namespace WorkerBroker

open Utf8 (bytesOf)

/-- A reader gets back each value from what is written for it, in front of whatever may follow a
value. What is written starts with a byte that is neither a blank nor the end of a list. -/
structure ReadsBack {α : Type} (item : Bytes → Shaped α) (text : α → List Char) : Prop where
  starts : ∀ v, ∃ b tail, bytesOf (text v) = b :: tail ∧ ¬isJsonBlank b ∧ b ≠ 0x5d
  reads : ∀ v rest, EndsValue rest → item (bytesOf (text v) ++ rest) = .ok (v, rest)

namespace ReadsBack

/-! ## Lists -/

section

variable {α : Type} {item : Bytes → Shaped α} {text : α → List Char}

/-- The items of a list start with a byte that is neither a blank nor the end of the list. -/
theorem starts_items (h : ReadsBack item text) (v : α) (vs : List α) :
    ∃ b tail, bytesOf (commaSeparated ((v :: vs).map text)) = b :: tail ∧ ¬isJsonBlank b ∧
      b ≠ 0x5d := by
  obtain ⟨b, tail, hbytes, hstart⟩ := h.starts v
  cases vs with
  | nil => exact ⟨b, tail, hbytes, hstart⟩
  | cons w vs =>
    rw [List.map_cons, List.map_cons, bytesOf_commaSeparated, hbytes]
    exact ⟨b, _, rfl, hstart⟩

theorem afterOpenList_items (h : ReadsBack item text) (v : α) (vs : List α) (rest : Bytes) :
    afterOpenList (bytesOf (commaSeparated ((v :: vs).map text)) ++ rest) =
      .ok (.another (bytesOf (commaSeparated ((v :: vs).map text)) ++ rest)) := by
  obtain ⟨b, tail, hbytes, hblank, hend⟩ := h.starts_items v vs
  rw [hbytes, List.cons_append, afterOpenList, skipBlanks_cons hblank]
  exact if_neg hend

theorem afterItem_items (h : ReadsBack item text) (v : α) (vs : List α) (rest : Bytes) :
    afterItem (0x2c :: (bytesOf (commaSeparated ((v :: vs).map text)) ++ rest)) =
      .ok (.another (bytesOf (commaSeparated ((v :: vs).map text)) ++ rest)) := by
  obtain ⟨b, tail, hbytes, hblank, hend⟩ := h.starts_items v vs
  rw [hbytes, List.cons_append, afterItem, skipBlanks_cons (by decide)]
  simp [skipBlanks_cons hblank, hend]

/-- The items of a list are read back one after the other, up to the closing bracket. -/
theorem readListFrom_items (h : ReadsBack item text) {bound : Bytes} (v : α) (vs found : List α)
    (hbound : vs.length < bound.length) (rest : Bytes) :
    readListFrom item bound found (bytesOf (commaSeparated ((v :: vs).map text)) ++ 0x5d :: rest) =
      .ok (found.reverse ++ v :: vs, rest) := by
  -- as the reader does, on the bound
  induction bound generalizing v vs found with
  | nil => cases hbound
  | cons _ bound ih =>
    cases vs with
    | nil =>
      have hread : item (bytesOf (text v) ++ 0x5d :: rest) = .ok (v, 0x5d :: rest) :=
        h.reads v _ (endsValue_cons (by decide) rest)
      have hclosed : afterItem (0x5d :: rest) = .ok (.closed rest) := rfl
      simp [readListFrom, commaSeparated, hread, hclosed]
    | cons w vs =>
      have hmore : bytesOf (commaSeparated ((v :: w :: vs).map text)) ++ 0x5d :: rest =
          bytesOf (text v) ++
            0x2c :: (bytesOf (commaSeparated ((w :: vs).map text)) ++ 0x5d :: rest) := by
        rw [List.map_cons, List.map_cons, bytesOf_commaSeparated, List.append_assoc,
          List.cons_append]
      have hread := h.reads v _ (endsValue_cons (b := 0x2c) (by decide)
        (bytesOf (commaSeparated ((w :: vs).map text)) ++ 0x5d :: rest))
      have hanother := h.afterItem_items w vs (0x5d :: rest)
      rw [hmore, readListFrom, hread]
      simp only [hanother]
      rw [ih w vs (v :: found) (Nat.lt_of_succ_lt_succ hbound)]
      simp

/-- Lists are read back if their items are. -/
theorem list (h : ReadsBack item text) :
    ReadsBack (readList item) fun vs => arrayText (vs.map text) where
  starts vs := ⟨0x5b, _, bytesOf_arrayText _, by decide, by decide⟩
  reads vs rest _ := by
    have hopen : ∀ bytes, skipBlanks (0x5b :: bytes) = 0x5b :: bytes := skipBlanks_cons (by decide)
    rw [bytesOf_arrayText, readList, List.cons_append, hopen]
    simp only [if_true, List.append_assoc, List.singleton_append]
    cases vs with
    | nil => rfl
    | cons v vs =>
      have hbound := length_le_bytesOf_commaSeparated (text v) (vs.map text)
      rw [List.length_map] at hbound
      rw [h.afterOpenList_items]
      apply h.readListFrom_items
      simp only [List.map_cons, List.length_append, List.length_cons]
      omega

end

/-! ## Records -/

section

variable {α β : Type} {shape : RecordShape α β} {first : α → List Char} {second : β → List Char}
  {rest : Bytes}

theorem readMember_first (h : ReadsBack shape.first first) (v : α) (found : Option β)
    (hrest : EndsValue rest) :
    shape.readMember (none, found) shape.firstName (0x3a :: (bytesOf (first v) ++ rest)) =
      .ok ((some v, found), rest) := by
  have hcolon : ∀ bytes, RecordShape.readColon (0x3a :: bytes) = .ok bytes := fun _ => rfl
  rw [RecordShape.readMember, if_pos rfl, hcolon]
  simp only [h.reads v rest hrest]
  rfl

theorem readMember_second (h : ReadsBack shape.second second)
    (hne : shape.firstName ≠ shape.secondName) (w : β) (found : Option α)
    (hrest : EndsValue rest) :
    shape.readMember (found, none) shape.secondName (0x3a :: (bytesOf (second w) ++ rest)) =
      .ok ((found, some w), rest) := by
  have hcolon : ∀ bytes, RecordShape.readColon (0x3a :: bytes) = .ok bytes := fun _ => rfl
  rw [RecordShape.readMember, if_neg (Ne.symm hne), if_pos rfl, hcolon]
  simp only [h.reads w rest hrest]
  rfl

section

variable {bound : Bytes} {found found' : Option α × Option β} {a : UInt8} {name : String}
  {value : List Char}

theorem readMembers_next (h : shape.readMember found name
      (0x3a :: (bytesOf value ++ 0x2c :: 0x22 :: rest)) = .ok (found', 0x2c :: 0x22 :: rest)) :
    shape.readMembers (a :: bound) found (memberBytes name value (0x2c :: 0x22 :: rest)) =
      shape.readMembers bound found' rest := by
  have hnext : afterMember (0x2c :: 0x22 :: rest) = .ok (.another rest) := rfl
  rw [memberBytes, RecordShape.readMembers, readText_quoted]
  simp only [h, hnext]

theorem readMembers_last (h : shape.readMember found name
      (0x3a :: (bytesOf value ++ 0x7d :: rest)) = .ok (found', 0x7d :: rest)) :
    shape.readMembers (a :: bound) found (memberBytes name value (0x7d :: rest)) =
      (shape.finish found').map fun r => (r, rest) := by
  have hclosed : afterMember (0x7d :: rest) = .ok (.closed rest) := rfl
  rw [memberBytes, RecordShape.readMembers, readText_quoted]
  simp only [h, hclosed]

end

/-- Both members are read back, one after the other. -/
theorem readMembers_pair (hfirst : ReadsBack shape.first first)
    (hsecond : ReadsBack shape.second second) (hne : shape.firstName ≠ shape.secondName)
    {bound : Bytes} (hbound : 2 ≤ bound.length) (r : α × β) :
    shape.readMembers bound (none, none) (memberBytes shape.firstName (first r.1)
        (0x2c :: 0x22 :: memberBytes shape.secondName (second r.2) (0x7d :: rest))) =
      .ok (r, rest) := by
  match bound, hbound with
  | _ :: _ :: bound, _ =>
    rw [readMembers_next (hfirst.readMember_first r.1 none (endsValue_cons (by decide) _)),
      readMembers_last (hsecond.readMember_second hne r.2 (some r.1)
        (endsValue_cons (by decide) rest))]
    rfl

/-- Records are read back if both members are. -/
theorem record (shape : RecordShape α β) (hfirst : ReadsBack shape.first first)
    (hsecond : ReadsBack shape.second second) (hne : shape.firstName ≠ shape.secondName) :
    ReadsBack shape.read fun r =>
      objectText [(shape.firstName, first r.1), (shape.secondName, second r.2)] where
  starts r := by
    have hbytes := bytesOf_objectText shape.firstName shape.secondName (first r.1) (second r.2) []
    rw [List.append_nil] at hbytes
    exact ⟨0x7b, _, hbytes, by decide, by decide⟩
  reads r rest _ := by
    have hopen : ∀ bytes, shape.read (0x7b :: 0x22 :: bytes) =
        shape.readMembers bytes (none, none) bytes := fun _ => rfl
    rw [bytesOf_objectText, hopen]
    apply readMembers_pair hfirst hsecond hne
    simp only [memberBytes, List.length_append, List.length_cons]
    omega

end

/-- Values that are put together from values that are read back are read back. -/
theorem map {α β : Type} {item : Bytes → Shaped α} {text : α → List Char} (h : ReadsBack item text)
    (f : α → β) (g : β → α) (hfg : ∀ v, f (g v) = v) :
    ReadsBack (fun bytes => (item bytes).map fun r => (f r.1, r.2)) fun v => text (g v) where
  starts v := h.starts (g v)
  reads v rest hrest := by
    rw [h.reads (g v) rest hrest]
    exact congrArg (fun w => Except.ok (w, rest)) (hfg v)

end ReadsBack

/-! ## Layouts -/

theorem ne_of_digit {b : UInt8} (h : 0x30 ≤ b && b ≤ 0x39) :
    ¬isJsonBlank b ∧ b ≠ 0x2d ∧ b ≠ 0x5d := by
  simp only [Bool.and_eq_true, decide_eq_true_eq, UInt8.le_iff_toNat_le] at h
  refine ⟨?_, ?_, ?_⟩
  · intro hblank
    simp only [isJsonBlank, Bool.or_eq_true, beq_iff_eq] at hblank
    rcases hblank with ((rfl | rfl) | rfl) | rfl <;> exact absurd h (by decide)
  · rintro rfl
    exact absurd h (by decide)
  · rintro rfl
    exact absurd h (by decide)

/-- Ids and lcores are read back, the largest among them. -/
theorem readsBack_word : ReadsBack readId wordText where
  starts n := by
    obtain ⟨b, tail, hbytes, hdigit⟩ := exists_digit_toDigits n.toNat
    obtain ⟨hblank, -, hend⟩ := ne_of_digit hdigit
    exact ⟨b, tail, hbytes, hblank, hend⟩
  reads n rest hrest := by
    obtain ⟨b, tail, hbytes, hdigit⟩ := exists_digit_toDigits n.toNat
    obtain ⟨hblank, hminus, -⟩ := ne_of_digit hdigit
    have hsize : n.toNat < UInt64.size := Nat.lt_trans n.toNat_lt_size (by decide)
    have hread : readNumber false (b :: (tail ++ rest)) = .ok (.int n.toNat, rest) := by
      have := readNumber_toDigits hsize hrest
      rwa [hbytes, List.cons_append] at this
    have hword : 0 ≤ (n.toNat : Int) ∧ (n.toNat : Int) < UInt32.size :=
      ⟨Int.natCast_nonneg _, Int.ofNat_lt.2 n.toNat_lt_size⟩
    rw [wordText, hbytes, List.cons_append, readId, skipBlanks_cons hblank]
    simp only [hdigit, Bool.or_true, if_true, hminus, if_false, decide_false, hread, if_pos hword,
      Int.toNat_natCast, UInt32.ofNat_toNat]

theorem readsBack_core : ReadsBack readCore Core.chars :=
  (ReadsBack.record coreShape readsBack_word readsBack_word.list (by decide)).map
    (fun r => (⟨r.1, r.2⟩ : Core)) (fun c : Core => (c.id, c.lcores)) fun _ => rfl

theorem readsBack_socket : ReadsBack readSocket Socket.chars :=
  (ReadsBack.record socketShape readsBack_word readsBack_core.list (by decide)).map
    (fun r => (⟨r.1, r.2⟩ : Socket)) (fun s : Socket => (s.id, s.cores)) fun _ => rfl

/-- A layout reads back from its text. -/
theorem readLayout_layoutText (layout : List Socket) :
    readLayout (Utf8.encode (layoutText layout)) = .ok layout := by
  have hread := readsBack_socket.list.reads layout [] nofun
  rw [List.append_nil] at hread
  rw [layoutText, Utf8.encode_ofList, readLayout, hread]
  rfl

/-- Different layouts are published differently. -/
theorem layoutText_injective : Function.Injective layoutText := by
  intro layout layout' h
  have hread := readLayout_layoutText layout
  rw [h, readLayout_layoutText] at hread
  exact (Except.ok.inj hread).symm

/-- The published layout is what a helper may print: whatever layout a broker has, it answers a
request for it, and a helper that prints the body of that answer and ends well tells just this
layout. -/
theorem published_layout_reads_back (layout : List Socket) (path : String) (request : Request)
    (hget : request.method = .get) (hpath : request.target.segments = ["v1", "cpu_layout"]) :
    ∃ response, Gateway.handle layout request = .done response ∧ response.status = 200 ∧
      helperLayout path (.exited 0 (Utf8.encode response.body)) = .ok layout := by
  refine ⟨.json (layoutText layout).toList, ?_, rfl, ?_⟩
  · simp [Gateway.handle, hget, hpath, routes, errandFor?, Gateway.attend, Errand.decode,
      Gateway.perform]
  · rw [Response.json, String.ofList_toList, helperLayout, readLayout_layoutText]
    rfl

/-- A socket without cores, and one with the largest id of all and a core without lcores. -/
theorem published_layout_reads_back_with_empty_lists :
    ∃ response,
      Gateway.handle [⟨1, []⟩, ⟨4294967295, [⟨0, []⟩, ⟨7, [4294967295, 0]⟩]⟩]
        ⟨.get, .ofText "/v1/cpu_layout", []⟩ = .done response ∧ response.status = 200 ∧
      helperLayout "/opt/topology" (.exited 0 (Utf8.encode response.body)) =
        .ok [⟨1, []⟩, ⟨4294967295, [⟨0, []⟩, ⟨7, [4294967295, 0]⟩]⟩] :=
  published_layout_reads_back _ _ _ rfl (by decide +kernel)

end WorkerBroker
