import WorkerBroker.Proofs.Keys
import WorkerBroker.Proofs.NumberLiterals
import WorkerBroker.Proofs.StatusPorts
import WorkerBroker.Proofs.WrittenForms
/-!
# Numbers of VLANs

The id and the priority of a VLAN tag, and the id of an entry of the classifier table, may be given
as a JSON number or as a string. `Json.Denotes` says which integer a value stands for: a number that
is one stands for itself, a string for the integer of which it holds a numeral, blanks at its ends
aside. A float stands for no integer, even if its value is one.

A command has just the integers that the values stand for, and a value that stands for none in the
range of its field is refused under the key of the field (`Order.vlan_numbers_exact`). A number may
also be given as a string that holds a literal of it, whichever literal that is
(`JsonNumber.IsSpelledBy`), and the request comes to the same. There is one exception. The literal
`-0` is read as the negative zero, which is a float and is refused, and the string `-0` stands for 0
(`Order.minus_zero_differs`).
-/

namespace WorkerBroker

open Utf8 (bytesOf)

/-! ## Values that stand for integers -/

/-- A value stands for an integer: as a number that is one, or as a string that is a numeral of it
once the blanks at both ends are cut off. A float stands for none, whatever its value. -/
inductive Json.Denotes : Json → Int → Prop
  | number (n : Int) : Denotes (.number (.int n)) n
  | text {s : String} {n : Int} (h : IsSignedNumeral (trim s.toList) n) : Denotes (.string s) n

/-- A string holds a literal from which a number is read, maybe with blanks around it. -/
def JsonNumber.IsSpelledBy (n : JsonNumber) (s : String) : Prop :=
  ∃ before text after, (∀ c ∈ before, isBlank c) ∧ (∀ c ∈ after, isBlank c) ∧
    s.toList = before ++ (text ++ after) ∧ Json.read (bytesOf text) = .ok (.number n)

/-- A string holds the literal `-0`. -/
def HoldsMinusZero (s : String) : Prop :=
  trim s.toList = ['-', '0']

instance (s : String) : Decidable (HoldsMinusZero s) :=
  inferInstanceAs (Decidable (_ = _))

/-- A value stands for one integer. -/
theorem Json.Denotes.unique {v : Json} {n m : Int} (h : v.Denotes n) (h' : v.Denotes m) :
    n = m := by
  cases h with
  | number n =>
    cases h'
    rfl
  | text h =>
    cases h' with
    | text h' => exact h.unique h'

/-- A number and a string with a literal of it stand for the same integers of 64 bits. -/
theorem JsonNumber.IsSpelledBy.denotes_iff {n : JsonNumber} {s : String} (h : n.IsSpelledBy s)
    (hzero : ¬HoldsMinusZero s) {m : Int} (hm : fitsI64 m) :
    (Json.string s).Denotes m ↔ (Json.number n).Denotes m := by
  obtain ⟨before, text, after, hb, ha, hs, hread⟩ := h
  have hliteral : IsLiteral s.toList n := hs ▸ (Json.isLiteral_of_read hread).surrounded hb ha
  cases hliteral with
  | integer hn =>
    constructor
    · rintro ⟨⟩
      rename_i h
      obtain rfl := hn.unique h
      exact .number _
    · rintro ⟨⟩
      exact .text hn
  | large hn hlarge =>
    refine iff_of_false (fun h => ?_) nofun
    cases h with
    | text h => exact hlarge (hn.unique h ▸ hm)
  | minusZero h => exact absurd h hzero
  | marked hc hmark =>
    -- no numeral has a point or an exponent
    refine iff_of_false (fun h => ?_) nofun
    cases h with
    | text h =>
      rcases hmark with rfl | rfl | rfl
      · exact absurd (h.chars _ (mem_trim hc (by decide))) (by decide)
      · exact absurd (h.chars _ (mem_trim hc (by decide))) (by decide)
      · exact absurd (h.chars _ (mem_trim hc (by decide))) (by decide)

namespace Body

variable {v : Json}

theorem integer?_eq_some_iff {n : Int} : integer? v = some n ↔ v.Denotes n ∧ fitsI64 n := by
  cases v with
  | string s =>
    simp only [integer?, readI64_eq_some_iff]
    refine and_congr_left fun _ => ⟨.text, fun h => ?_⟩
    cases h with
    | text h => exact h
  | number m =>
    cases m with
    | int m =>
      simp only [integer?, Json.asI64?]
      split
      · rename_i hm
        constructor
        · rintro ⟨⟩
          exact ⟨.number _, hm⟩
        · rintro ⟨⟨⟩, -⟩
          rfl
      · rename_i hm
        refine iff_of_false nofun ?_
        rintro ⟨⟨⟩, h⟩
        exact hm h
    | float bits => exact iff_of_false nofun nofun
  | _ => exact iff_of_false nofun nofun

/-- A number below a bound is read from what stands for it, and is the one that is meant. -/
theorem below?_eq_some_iff {bound n : Nat} (hbound : bound ≤ 2 ^ 63) :
    below? bound v = some n ↔ v.Denotes n ∧ n < bound := by
  simp only [below?, Option.bind_eq_some_iff, integer?_eq_some_iff]
  constructor
  · rintro ⟨m, ⟨hm, -⟩, h⟩
    split at h
    · rename_i hrange
      cases h
      rw [Int.toNat_of_nonneg hrange.1]
      exact ⟨hm, by omega⟩
    · cases h
  · rintro ⟨h, hlt⟩
    refine ⟨n, ⟨h, ?_⟩, ?_⟩
    · exact decide_eq_true (by omega)
    · rw [if_pos (by omega), Int.toNat_natCast]

theorem word16?_eq_some_iff {n : UInt16} : word16? v = some n ↔ v.Denotes n.toNat := by
  simp only [word16?, Option.map_eq_some_iff, below?_eq_some_iff (by decide : UInt16.size ≤ 2 ^ 63)]
  constructor
  · rintro ⟨m, ⟨hm, hlt⟩, rfl⟩
    rwa [UInt16.toNat_ofNat_of_lt' hlt]
  · intro h
    exact ⟨n.toNat, ⟨h, n.toNat_lt_size⟩, UInt16.ofNat_toNat⟩

theorem word8?_eq_some_iff {n : UInt8} : word8? v = some n ↔ v.Denotes n.toNat := by
  simp only [word8?, Option.map_eq_some_iff, below?_eq_some_iff (by decide : UInt8.size ≤ 2 ^ 63)]
  constructor
  · rintro ⟨m, ⟨hm, hlt⟩, rfl⟩
    rwa [UInt8.toNat_ofNat_of_lt' hlt]
  · intro h
    exact ⟨n.toNat, ⟨h, n.toNat_lt_size⟩, UInt8.ofNat_toNat⟩

variable {body : Json} {key : String}

theorem vlanId_eq_ok_iff (h : body.member? key = some v) {id : UInt16} :
    vlanId body key = .ok id ↔ v.Denotes id.toNat := by
  rw [← word16?_eq_some_iff, vlanId, h]
  rcases hw : word16? v with _ | m <;> simp [hw]

theorem vlanId_eq_error (h : body.member? key = some v)
    (hno : ∀ id : UInt16, ¬v.Denotes id.toNat) :
    vlanId body key = .error (.keyInvalid key v.shown) := by
  rw [vlanId, h]
  rcases hw : word16? v with _ | id
  · simp only [hw]
  · exact absurd (word16?_eq_some_iff.1 hw) (hno id)

/-- A value with a member is not empty. -/
theorem isEmptyTag_of_member {tag x : Json} (h : tag.member? key = some x) :
    isEmptyTag tag = false := by
  cases tag with
  | object members =>
    cases members with
    | nil => cases h
    | cons e members => rfl
  | _ => cases h

theorem vlanTag_of_member {tag x : Json} (h : body.member? "vlan" = some tag)
    (hx : tag.member? key = some x) :
    vlanTag body = match tag? tag with
      | some t => .ok t
      | none => .error (.keyInvalid "vlan" tag.shown) := by
  simp only [vlanTag, h, isEmptyTag_of_member hx]
  rfl

/-- The value under `vlan` of a body asks for a tag with this id and this priority. -/
structure AsksForTag (body tag x y : Json) : Prop where
  member : body.member? "vlan" = some tag
  operation : tag.member? "operation" = some (.string "add")
  id : tag.member? "id" = some x
  priority : tag.member? "pcp" = some y

section

variable {tag x y : Json} (h : AsksForTag body tag x y)

include h

theorem AsksForTag.tag?_eq : tag? tag = do return .add (← word16? x) (← word8? y) := by
  rw [tag?, h.operation, h.id, h.priority]
  rfl

theorem AsksForTag.vlanTag_eq_ok_iff {id : UInt16} {pcp : UInt8} :
    vlanTag body = .ok (.add id pcp) ↔ x.Denotes id.toNat ∧ y.Denotes pcp.toNat := by
  rw [vlanTag_of_member h.member h.operation, h.tag?_eq, ← word16?_eq_some_iff,
    ← word8?_eq_some_iff]
  rcases word16? x with _ | m <;> rcases word8? y with _ | k <;> simp

theorem AsksForTag.vlanTag_eq_error
    (hno : ∀ (id : UInt16) (pcp : UInt8), ¬(x.Denotes id.toNat ∧ y.Denotes pcp.toNat)) :
    vlanTag body = .error (.keyInvalid "vlan" tag.shown) := by
  rw [vlanTag_of_member h.member h.operation, h.tag?_eq]
  rcases hx : word16? x with _ | id
  · rfl
  · rcases hy : word8? y with _ | pcp
    · rfl
    · exact absurd ⟨word16?_eq_some_iff.1 hx, word8?_eq_some_iff.1 hy⟩ (hno id pcp)

end

/-! ### Keys that are right -/

theorem choice_of_text {s : String} {choices : List String}
    (h : body.member? key = some (.string s)) (hs : s ∈ choices) :
    choice body key choices = .ok s := by
  rw [choice, text, requireAs, require, h]
  exact if_pos hs

theorem port_of_written {s : String} {port : Port} (h : body.member? key = some (.string s))
    (hs : port.Written s) : Body.port body key = .ok port := by
  rw [port_of_text h, Port.read_eq_ok_iff.2 hs]

theorem mac_of_text {mac : MacAddress} (h : body.member? key = some (.string mac.text)) :
    Body.mac body key = .ok mac := by
  rw [Body.mac, text, requireAs, require, h]
  exact MacAddress.read_eq_ok_iff.2 ⟨MacAddress.isMacText_iff_grammar.1 mac.isMac, rfl⟩

theorem requireAll_of_members {keys : List String} (h : ∀ key ∈ keys, body.member? key ≠ none) :
    requireAll body keys = .ok () := by
  induction keys with
  | nil => rfl
  | cons key keys ih =>
    obtain ⟨hkey, hkeys⟩ := List.forall_mem_cons.1 h
    rw [requireAll]
    split
    · exact ih hkeys
    · exact absurd ‹_› hkey

end Body

/-- A body asks for a port to be attached; what is to be done with tags is left open. -/
structure Json.Attaches (body : Json) (port : Port) (direction : Direction) : Prop where
  action : body.member? "action" = some (.string "attach")
  direction : body.member? "dir" = some (.string direction.name)
  port : ∃ s, body.member? "port" = some (.string s) ∧ port.Written s

/-- A body asks for an entry for a VLAN; which one is left open. -/
structure Json.Steers (body : Json) (action : TableAction) (mac : MacAddress) (port : Port) :
    Prop where
  action : body.member? "action" = some (.string action.name)
  type : body.member? "type" = some (.string "vlan")
  mac : body.member? "mac_address" = some (.string mac.text)
  port : ∃ s, body.member? "port" = some (.string s) ∧ port.Written s

namespace Order

variable {body : Json} {port : Port}

/-- If nothing else is wrong, a port is attached with the tag that is asked for. -/
theorem command_componentPort {name : String} {direction : Direction} (hname : isToken name)
    (h : body.Attaches port direction) :
    (componentPort name).command .vf body =
      (Body.vlanTag body).map fun tag => .attachPort port direction name tag := by
  obtain ⟨s, hs, hport⟩ := h.port
  have hkeys : Body.requireAll body (componentPort name).requiredKeys = .ok () := by
    apply Body.requireAll_of_members
    simp [requiredKeys, h.action, h.direction, hs]
  have haction : "attach" ∈ ["attach", "detach"] := by decide
  have hdir : direction.name ∈ ["rx", "tx"] := by cases direction <;> decide
  simp only [command, checkPath, Body.checkName, hname, if_true, hkeys, commandOf,
    componentPortCommand, Body.choice_of_text h.action haction,
    Body.choice_of_text h.direction hdir, Body.port_of_written hs hport]
  rcases Body.vlanTag body with e | tag <;> cases direction <;> rfl

/-- If nothing else is wrong, an entry is for the VLAN that is asked for. -/
theorem command_classifierTable {kind : WorkerKind} {action : TableAction} {mac : MacAddress}
    (h : body.Steers action mac port) :
    classifierTable.command kind body =
      (Body.vlanId body "vlan").map fun id => .classifierTable action ⟨some id, mac, port⟩ := by
  obtain ⟨s, hs, hport⟩ := h.port
  have hkeys : Body.requireAll body classifierTable.requiredKeys = .ok () := by
    apply Body.requireAll_of_members
    simp [requiredKeys, h.action, h.type, h.mac, hs]
  have haction : action.name ∈ ["add", "del"] := by cases action <;> decide
  have htype : "vlan" ∈ ["mac", "vlan"] := by decide
  simp only [command, checkPath, hkeys, commandOf, classifierTableCommand,
    Body.choice_of_text h.action haction,
    Body.choice_of_text h.type htype, Body.port_of_written hs hport, Body.mac_of_text h.mac]
  rcases Body.vlanId body "vlan" with e | id
  · rfl
  · cases action <;> rfl

end Order

/-! ## Two spellings -/

/-- Two results are the same, or both refuse what stands under a key, of which they may show
different texts. -/
def ComesToSame {α : Type} (key : String) (x y : Except Failure α) : Prop :=
  x = y ∨ ∃ shown shown', x = .error (.keyInvalid key shown) ∧ y = .error (.keyInvalid key shown')

section

variable {α β : Type} {key : String} {x y : Except Failure α}

theorem ComesToSame.bind (h : ComesToSame key x y) (f : α → Except Failure β) :
    ComesToSame key (x >>= f) (y >>= f) := by
  rcases h with rfl | ⟨shown, shown', rfl, rfl⟩
  · exact .inl rfl
  · exact .inr ⟨shown, shown', rfl, rfl⟩

theorem ComesToSame.map (h : ComesToSame key x y) (f : α → β) :
    ComesToSame key (x.map f) (y.map f) := by
  rcases h with rfl | ⟨shown, shown', rfl, rfl⟩
  · exact .inl rfl
  · exact .inr ⟨shown, shown', rfl, rfl⟩

theorem comesToSame_bind (h : x = y) {f g : α → Except Failure β}
    (hf : ∀ a, ComesToSame key (f a) (g a)) : ComesToSame key (x >>= f) (y >>= g) := by
  subst h
  cases x with
  | error e => exact .inl rfl
  | ok a => exact hf a

end

/-- Two values have the same members, but one of them is a number in the first and a string in the
second. -/
structure Json.Respells (v : Json) (key : String) (w : Json) (n : JsonNumber) (s : String) :
    Prop where
  number : v.member? key = some (.number n)
  text : w.member? key = some (.string s)
  others : ∀ other, other ≠ key → v.member? other = w.member? other

namespace Body

section

variable {n : JsonNumber} {s : String} (h : n.IsSpelledBy s) (hzero : ¬HoldsMinusZero s)

include h hzero

/-- A number and a literal of it are read alike, whatever the width of the field. -/
theorem below?_of_isSpelledBy (bound : Nat) :
    below? bound (.string s) = below? bound (.number n) := by
  have hinteger : integer? (.string s) = integer? (.number n) := by
    ext m
    rw [integer?_eq_some_iff, integer?_eq_some_iff]
    exact and_congr_left fun hm => h.denotes_iff hzero hm
  rw [below?, below?, hinteger]

theorem word16?_of_isSpelledBy : word16? (.string s) = word16? (.number n) :=
  congrArg (Option.map UInt16.ofNat) (below?_of_isSpelledBy h hzero _)

theorem word8?_of_isSpelledBy : word8? (.string s) = word8? (.number n) :=
  congrArg (Option.map UInt8.ofNat) (below?_of_isSpelledBy h hzero _)

end

variable {v w : Json} {key : String} {n : JsonNumber} {s : String}

theorem vlanId_comesToSame (hr : v.Respells key w n s) (h : n.IsSpelledBy s)
    (hzero : ¬HoldsMinusZero s) : ComesToSame key (vlanId v key) (vlanId w key) := by
  simp only [vlanId, hr.number, hr.text, word16?_of_isSpelledBy h hzero]
  rcases word16? (.number n) with _ | id
  · exact .inr ⟨_, _, rfl, rfl⟩
  · exact .inl rfl

/-- What reads a number and a string alike reads every member alike, the one that differs among
them. -/
theorem bind_member?_of_respells {α : Type} {read : Json → Option α}
    (hread : read (.string s) = read (.number n)) (hr : v.Respells key w n s) (other : String) :
    (v.member? other).bind read = (w.member? other).bind read := by
  by_cases hk : other = key
  · subst hk
    rw [hr.number, hr.text, Option.bind_some, Option.bind_some, hread]
  · rw [hr.others _ hk]

theorem tag?_of_respells (hr : v.Respells key w n s) (h : n.IsSpelledBy s)
    (hzero : ¬HoldsMinusZero s) (hkey : key ≠ "operation") : tag? v = tag? w := by
  rw [tag?, tag?, hr.others _ hkey.symm,
    bind_member?_of_respells (word16?_of_isSpelledBy h hzero) hr,
    bind_member?_of_respells (word8?_of_isSpelledBy h hzero) hr]

theorem vlanTag_comesToSame {tag tag' : Json} (hv : v.member? "vlan" = some tag)
    (hw : w.member? "vlan" = some tag') (hr : tag.Respells key tag' n s) (h : n.IsSpelledBy s)
    (hzero : ¬HoldsMinusZero s) (hkey : key ≠ "operation") :
    ComesToSame "vlan" (vlanTag v) (vlanTag w) := by
  rw [vlanTag_of_member hv hr.number, vlanTag_of_member hw hr.text,
    tag?_of_respells hr h hzero hkey]
  rcases tag? tag' with _ | t
  · exact .inr ⟨_, _, rfl, rfl⟩
  · exact .inl rfl

end Body

namespace Order

variable {kind : WorkerKind} {v w : Json} {n : JsonNumber} {s : String}

theorem requireAll_of_others {o : Order}
    (h : ∀ key, key ≠ "vlan" → v.member? key = w.member? key) :
    Body.requireAll v o.requiredKeys = Body.requireAll w o.requiredKeys := by
  refine Body.requireAll_congr fun key hkey => h key ?_
  rintro rfl
  cases o <;> simp [requiredKeys] at hkey

/-- How the id of an entry is spelled makes no difference. -/
theorem classifierTable_comesToSame (hr : v.Respells "vlan" w n s) (h : n.IsSpelledBy s)
    (hzero : ¬HoldsMinusZero s) :
    ComesToSame "vlan" (classifierTable.command kind v) (classifierTable.command kind w) := by
  refine comesToSame_bind rfl fun _ => ?_
  refine comesToSame_bind (requireAll_of_others hr.others) fun _ => ?_
  refine comesToSame_bind (Body.choice_congr (hr.others _ (by decide)) _) fun action => ?_
  refine comesToSame_bind (Body.choice_congr (hr.others _ (by decide)) _) fun type => ?_
  refine comesToSame_bind (Body.port_congr (hr.others _ (by decide))) fun port => ?_
  refine comesToSame_bind (Body.mac_congr (hr.others _ (by decide))) fun mac => ?_
  by_cases htype : type = "mac"
  · rw [if_pos htype, if_pos htype]
    exact .inl rfl
  · rw [if_neg htype, if_neg htype]
    exact ((Body.vlanId_comesToSame hr h hzero).map some).bind _

/-- Nor does it how the id or the priority of a tag is. -/
theorem componentPort_comesToSame {name key : String} {tag tag' : Json}
    (hv : v.member? "vlan" = some tag) (hw : w.member? "vlan" = some tag')
    (others : ∀ other, other ≠ "vlan" → v.member? other = w.member? other)
    (hr : tag.Respells key tag' n s) (h : n.IsSpelledBy s) (hzero : ¬HoldsMinusZero s)
    (hkey : key ≠ "operation") :
    ComesToSame "vlan" ((componentPort name).command kind v)
      ((componentPort name).command kind w) := by
  refine comesToSame_bind rfl fun _ => ?_
  refine comesToSame_bind (requireAll_of_others others) fun _ => ?_
  refine comesToSame_bind (Body.choice_congr (others _ (by decide)) _) fun action => ?_
  refine comesToSame_bind (Body.choice_congr (others _ (by decide)) _) fun dir => ?_
  refine comesToSame_bind rfl fun direction => ?_
  refine comesToSame_bind (Body.port_congr (others _ (by decide))) fun port => ?_
  by_cases hattach : action = "attach"
  · rw [if_pos hattach, if_pos hattach]
    by_cases hk : kind = .vf
    · rw [if_pos hk, if_pos hk]
      exact (Body.vlanTag_comesToSame hv hw hr h hzero hkey).bind _
    · rw [if_neg hk, if_neg hk]
      exact .inl rfl
  · rw [if_neg hattach, if_neg hattach]
    exact .inl rfl

/-- Numbers of VLANs are taken exactly. An entry of the classifier table or a tag is made with the
integers that the values stand for, and it is refused if one of these has none or none in the range
of its field; nothing is cut down to fit. Whether such a value is a number or a string with a literal
of the number makes no difference, whatever else the request is like, unless the literal is `-0`. -/
theorem vlan_numbers_exact :
    (∀ kind body action mac port v, body.Steers action mac port → body.member? "vlan" = some v →
      (∀ id : UInt16, classifierTable.command kind body =
          .ok (.classifierTable action ⟨some id, mac, port⟩) ↔ v.Denotes id.toNat) ∧
        ((∀ n : Nat, n < 65536 → ¬v.Denotes n) →
          classifierTable.command kind body = .error (.keyInvalid "vlan" v.shown))) ∧
      (∀ name body port direction tag x y, isToken name → body.Attaches port direction →
        Body.AsksForTag body tag x y →
        (∀ (id : UInt16) (pcp : UInt8), (componentPort name).command .vf body =
            .ok (.attachPort port direction name (.add id pcp)) ↔
              x.Denotes id.toNat ∧ y.Denotes pcp.toNat) ∧
          ((∀ n : Nat, n < 65536 → ¬x.Denotes n) ∨ (∀ n : Nat, n < 256 → ¬y.Denotes n) →
            (componentPort name).command .vf body = .error (.keyInvalid "vlan" tag.shown))) ∧
      (∀ (n : JsonNumber) (s : String), n.IsSpelledBy s → ¬HoldsMinusZero s → ∀ kind v w,
        v.Respells "vlan" w n s →
        ComesToSame "vlan" (classifierTable.command kind v) (classifierTable.command kind w)) ∧
      ∀ (n : JsonNumber) (s : String), n.IsSpelledBy s → ¬HoldsMinusZero s →
        ∀ kind name v w tag tag', ∀ key ∈ ["id", "pcp"], v.member? "vlan" = some tag →
        w.member? "vlan" = some tag' → tag.Respells key tag' n s →
        (∀ other, other ≠ "vlan" → v.member? other = w.member? other) →
        ComesToSame "vlan" ((componentPort name).command kind v)
          ((componentPort name).command kind w) := by
  refine ⟨fun kind body action mac port v h hv => ⟨fun id => ?_, fun hno => ?_⟩,
    fun name body port direction tag x y hname h htag => ⟨fun id pcp => ?_, fun hno => ?_⟩,
    fun n s hs hzero kind v w hr => classifierTable_comesToSame hr hs hzero,
    fun n s hs hzero kind name v w tag tag' key hkey hv hw hr others => ?_⟩
  · rw [command_classifierTable h, ← Body.vlanId_eq_ok_iff hv]
    rcases Body.vlanId body "vlan" with e | m <;> simp [Except.map]
  · rw [command_classifierTable h, Body.vlanId_eq_error hv fun id => hno _ id.toNat_lt]
    rfl
  · rw [command_componentPort hname h, ← htag.vlanTag_eq_ok_iff]
    rcases Body.vlanTag body with e | m <;> simp [Except.map]
  · have hnone : ∀ (id : UInt16) (pcp : UInt8), ¬(x.Denotes id.toNat ∧ y.Denotes pcp.toNat) := by
      rintro id pcp ⟨hid, hpcp⟩
      rcases hno with hno | hno
      · exact hno _ id.toNat_lt hid
      · exact hno _ pcp.toNat_lt hpcp
    rw [command_componentPort hname h, htag.vlanTag_eq_error hnone]
    rfl
  · have hne : key ≠ "operation" := by
      rintro rfl
      simp at hkey
    exact componentPort_comesToSame hv hw others hr hs hzero hne

/-- A body that asks for an entry for a VLAN. -/
def entryBody (vlan : Json) : Json :=
  .object [("action", .string "add"), ("mac_address", .string "default"),
    ("port", .string "phy:0"), ("type", .string "vlan"), ("vlan", vlan)]

/-- A tag to be added. -/
def tagToAdd (id pcp : Json) : Json :=
  .object [("id", id), ("operation", .string "add"), ("pcp", pcp)]

/-- A body that asks for a port to be attached with a tag. -/
def tagBody (tag : Json) : Json :=
  .object [("action", .string "attach"), ("dir", .string "rx"), ("port", .string "phy:0"),
    ("vlan", tag)]

theorem entryBody_steers (vlan : Json) :
    (entryBody vlan).Steers .add ⟨"default", by decide⟩ ⟨.phy, 0⟩ :=
  ⟨rfl, rfl, rfl, "phy:0", rfl, Port.written_text ⟨.phy, 0⟩⟩

theorem tagBody_attaches (tag : Json) : (tagBody tag).Attaches ⟨.phy, 0⟩ .rx :=
  ⟨rfl, rfl, "phy:0", rfl, Port.written_text ⟨.phy, 0⟩⟩

theorem entryBody_respells (n : JsonNumber) (s : String) :
    (entryBody (.number n)).Respells "vlan" (entryBody (.string s)) n s where
  number := rfl
  text := rfl
  others other hne := by simp [entryBody, Json.member?, Table.find?, hne]

theorem tagToAdd_respells (id : Json) (n : JsonNumber) (s : String) :
    (tagToAdd id (.number n)).Respells "pcp" (tagToAdd id (.string s)) n s where
  number := rfl
  text := rfl
  others other hne := by simp [tagToAdd, Json.member?, Table.find?, hne]

/-- The float 1, by its bits. -/
def floatOne : JsonNumber := .float 0x3ff0000000000000

/-- A string with a sign, zeros and blanks around is taken for its number, an id of 17 bits is not
taken for one of 16, `3` is as good as 3, and `1e0` is no better than the float 1. -/
theorem vlan_numbers_exact_in_strings :
    classifierTable.command .vf (entryBody (.string "\u3000+020 ")) =
        .ok (.classifierTable .add ⟨some 20, ⟨"default", by decide⟩, ⟨.phy, 0⟩⟩) ∧
      (componentPort "fwd").command .vf (tagBody (tagToAdd (.ofNat 65536) (.ofNat 3))) =
        .error (.keyInvalid "vlan" (tagToAdd (.ofNat 65536) (.ofNat 3)).shown) ∧
      ComesToSame "vlan" (classifierTable.command .vf (entryBody (.ofNat 3)))
        (classifierTable.command .vf (entryBody (.string " 3\u3000"))) ∧
      ComesToSame "vlan"
        ((componentPort "fwd").command .vf (tagBody (tagToAdd (.ofNat 7) (.number floatOne))))
        ((componentPort "fwd").command .vf
          (tagBody (tagToAdd (.ofNat 7) (.string "1e0 ")))) := by
  obtain ⟨hentry, htag, hentries, htags⟩ := vlan_numbers_exact
  have htwenty : (Json.string "\u3000+020 ").Denotes (20 : UInt16).toNat :=
    .text (readInt_eq_some_iff.1 (by decide))
  have hwide : ∀ n : Nat, n < 65536 → ¬(Json.ofNat 65536).Denotes n := by
    intro n hn h
    have := h.unique (.number 65536)
    omega
  have hthree : (JsonNumber.int 3).IsSpelledBy " 3\u3000" :=
    ⟨[' '], ['3'], ['\u3000'], List.forall_mem_singleton.2 (by decide),
      List.forall_mem_singleton.2 (by decide), by decide, rfl⟩
  have hone : floatOne.IsSpelledBy "1e0 " :=
    ⟨[], ['1', 'e', '0'], [' '], nofun, List.forall_mem_singleton.2 (by decide), by decide, rfl⟩
  refine ⟨((hentry _ _ _ _ _ _ (entryBody_steers _) rfl).1 20).2 htwenty, ?_,
    hentries _ _ hthree (by decide) _ _ _ (entryBody_respells _ _), ?_⟩
  · exact (htag "fwd" _ _ _ _ _ _ (by decide) (tagBody_attaches _) ⟨rfl, rfl, rfl, rfl⟩).2
      (.inl hwide)
  · refine htags _ _ hone (by decide) _ _ _ _ _ _ "pcp" (by simp) rfl rfl
      (tagToAdd_respells _ _ _) ?_
    intro other hne
    simp [tagBody, Json.member?, Table.find?, hne]

/-- The literal `-0` is read as the negative zero. As a number it is refused, and as a string it is
taken for 0. -/
theorem minus_zero_differs :
    (JsonNumber.float negativeZero).IsSpelledBy "-0" ∧
      (entryBody (.number (.float negativeZero))).Respells "vlan" (entryBody (.string "-0"))
        (.float negativeZero) "-0" ∧
      classifierTable.command .vf (entryBody (.number (.float negativeZero))) =
        .error (.keyInvalid "vlan" "-0.0") ∧
      classifierTable.command .vf (entryBody (.string "-0")) =
        .ok (.classifierTable .add ⟨some 0, ⟨"default", by decide⟩, ⟨.phy, 0⟩⟩) ∧
      ¬ComesToSame "vlan"
        (classifierTable.command .vf (entryBody (.number (.float negativeZero))))
        (classifierTable.command .vf (entryBody (.string "-0"))) := by
  have hspelled : (JsonNumber.float negativeZero).IsSpelledBy "-0" :=
    ⟨[], ['-', '0'], [], nofun, nofun, by decide, rfl⟩
  have hzero : (Json.string "-0").Denotes (0 : UInt16).toNat :=
    .text (readInt_eq_some_iff.1 (by decide))
  have hnumber : classifierTable.command .vf (entryBody (.number (.float negativeZero))) =
      .error (.keyInvalid "vlan" "-0.0") := by
    rw [command_classifierTable (entryBody_steers _),
      Body.vlanId_eq_error (v := .number (.float negativeZero)) rfl fun _ => nofun]
    rfl
  have hstring : classifierTable.command .vf (entryBody (.string "-0")) =
      .ok (.classifierTable .add ⟨some 0, ⟨"default", by decide⟩, ⟨.phy, 0⟩⟩) := by
    rw [command_classifierTable (entryBody_steers _), (Body.vlanId_eq_ok_iff rfl).2 hzero]
    rfl
  refine ⟨hspelled, entryBody_respells _ _, hnumber, hstring, ?_⟩
  rw [hnumber, hstring]
  rintro (h | ⟨shown, shown', -, h⟩) <;> cases h

end Order

end WorkerBroker
