import WorkerBroker.Proofs.Answers
import WorkerBroker.Proofs.Exits
import WorkerBroker.Proofs.Judgements
import WorkerBroker.Proofs.Lcores
import WorkerBroker.Proofs.Registry
import WorkerBroker.Proofs.Traffic
/-!
# Handshakes

A connection to the listener of the secondaries is asked who it is, and anything may come of that:
a reply of any bytes, the end of the stream, a reset, or nothing until the deadline. It has declared
who it is if it has sent a reply that is no error and gives a kind of secondaries and an id other
than the primary's in one of two forms (`Outcome.Declares`). Each reply is read as one kind at most,
so the kinds may be tried in any order (`identifyIn_of_perm`).

Once a worker has been declared, the connection is kept for it (`Standing.Reserves`): until it is
closed it is in the hands of the registration or with a member of that kind and id. Otherwise the
registration drops the connection and minds nothing else (`Broker.keepsRest_of_mindsOnly`). Together
this is `Broker.registered_iff_declared`.
-/

namespace WorkerBroker

open Function (update)

/-! ## What a reply declares -/

/-- A reply declares a kind of secondaries and an id other than the primary's: as the members of an
object, or as the two items of an array. -/
def Json.Declares (reply : Json) (who : Identity) : Prop :=
  who.1 ∈ secondaryKinds ∧ who.2 ≠ primaryId ∧
    ((∃ members, reply = .object members ∧
        Table.find? "process_type" members = some (.string who.1.name) ∧
        Table.find? "client_id" members = some (.ofNat who.2.toNat)) ∨
      reply = .array [.string who.1.name, .ofNat who.2.toNat])

/-- A connection that was asked who it is has declared it, in a reply that is no error. -/
def Outcome.Declares (o : Outcome) (who : Identity) : Prop :=
  ∃ raw reply, o = .ok raw ∧ decodeReply raw = .ok reply ∧ reply.Declares who

theorem declared?_eq_some_iff {reply : Json} {name : String} {id : UInt32} :
    declared? reply = some (name, id) ↔
      (∃ members, reply = .object members ∧
        Table.find? "process_type" members = some (.string name) ∧
        Table.find? "client_id" members = some (.ofNat id.toNat)) ∨
      reply = .array [.string name, .ofNat id.toNat] := by
  have hid : ∀ {v : Json}, v.asU32? = some id ↔ v = .ofNat id.toNat := asU32?_eq_some_iff
  unfold declared?
  split
  · simp [Option.bind_eq_some_iff, Json.asString?_eq_some_iff, hid]
  · simp [Option.bind_eq_some_iff, Json.asString?_eq_some_iff, hid]
  · rename_i hobject harray
    constructor
    · intro hnone
      cases hnone
    · rintro (⟨members, rfl, -⟩ | rfl)
      · exact absurd rfl (hobject members)
      · exact absurd rfl (harray _ _)

theorem declaredAs?_eq_some_iff {kind : WorkerKind} {reply : Json} {id : UInt32} :
    declaredAs? kind reply = some id ↔ declared? reply = some (kind.name, id) := by
  simp [declaredAs?, Option.bind_eq_some_iff]

/-- No reply is read as two kinds. -/
theorem kind_of_declaredAs? {kind kind' : WorkerKind} {reply : Json} {id id' : UInt32}
    (h : declaredAs? kind reply = some id) (h' : declaredAs? kind' reply = some id') :
    kind = kind' := by
  rw [declaredAs?_eq_some_iff] at h h'
  have hname : kind.name = kind'.name := congrArg Prod.fst (Option.some.inj (h.symm.trans h'))
  have hread := kind.ofName?_name
  rw [hname, kind'.ofName?_name] at hread
  exact (Option.some.inj hread).symm

/-- Who a reply says its sender is, if the kinds are tried in this order. -/
def identifyIn (order : List WorkerKind) (reply : Json) : Option Identity :=
  order.findSome? fun kind => (declaredAs? kind reply).map fun id => (kind, id)

theorem declaredAs?_of_identifyIn {order : List WorkerKind} {reply : Json} {who : Identity}
    (h : identifyIn order reply = some who) :
    who.1 ∈ order ∧ declaredAs? who.1 reply = some who.2 := by
  obtain ⟨kind, hkind, h⟩ := List.exists_of_findSome?_eq_some h
  obtain ⟨id, hid, rfl⟩ := Option.map_eq_some_iff.1 h
  exact ⟨hkind, hid⟩

/-- In whatever order the kinds are tried, a reply is read as the one that it declares. -/
theorem identifyIn_eq_some_iff {order : List WorkerKind} {reply : Json} {who : Identity} :
    identifyIn order reply = some who ↔
      who.1 ∈ order ∧ declaredAs? who.1 reply = some who.2 := by
  refine ⟨declaredAs?_of_identifyIn, fun ⟨hmem, hdeclared⟩ => ?_⟩
  have hsome : (identifyIn order reply).isSome := by
    rw [identifyIn, List.findSome?_isSome_iff]
    exact ⟨who.1, hmem, by rw [hdeclared]; rfl⟩
  obtain ⟨⟨kind, id⟩, hwho⟩ := Option.isSome_iff_exists.1 hsome
  -- whatever is found first is the one
  have hfound := (declaredAs?_of_identifyIn hwho).2
  have hkind : kind = who.1 := kind_of_declaredAs? hfound hdeclared
  have hid : id = who.2 := by
    rw [← hkind] at hdeclared
    exact Option.some.inj (hfound.symm.trans hdeclared)
  rw [hwho, hkind, hid]

theorem mem_identifyOrder {kind : WorkerKind} : kind ∈ identifyOrder ↔ kind ∈ secondaryKinds := by
  cases kind <;> decide

/-- The order in which the kinds are tried makes no difference. -/
theorem identifyIn_of_perm {order : List WorkerKind} (h : order.Perm identifyOrder) (reply : Json) :
    identifyIn order reply = identify? reply := by
  refine Option.ext fun who => ?_
  change identifyIn order reply = some who ↔ identifyIn identifyOrder reply = some who
  rw [identifyIn_eq_some_iff, identifyIn_eq_some_iff, h.mem_iff]

/-- Who a reply says its sender is. -/
theorem identityOf_eq_ok_iff {raw : Bytes} {who : Identity} :
    identityOf raw = .ok who ↔ ∃ reply, decodeReply raw = .ok reply ∧ reply.Declares who := by
  have hread : ∀ reply, identify? reply = some who ∧ who.2 ≠ primaryId ↔ reply.Declares who := by
    intro reply
    change identifyIn identifyOrder reply = some who ∧ who.2 ≠ primaryId ↔ _
    rw [identifyIn_eq_some_iff, declaredAs?_eq_some_iff, declared?_eq_some_iff, mem_identifyOrder,
      Json.Declares, and_right_comm, and_assoc]
  rw [identityOf]
  rcases decodeReply raw with e | reply
  · simp
  · simp only [Except.ok.injEq, exists_eq_left', ← hread]
    rcases identify? reply with _ | ⟨kind, id⟩
    · simp
    · by_cases hid : id = primaryId
      · simp only [if_pos hid]
        constructor
        · intro herror
          cases herror
        · rintro ⟨hwho, hne⟩
          rw [← Option.some.inj hwho] at hne
          exact absurd hid hne
      · simp only [if_neg hid, Except.ok.injEq, Option.some.injEq]
        refine ⟨?_, And.left⟩
        rintro rfl
        exact ⟨rfl, hid⟩

/-- Who a connection is taken for is who it declares to be. -/
theorem identity?_eq_some_iff {o : Outcome} {who : Identity} :
    identity? o = some who ↔ o.Declares who := by
  rcases o with s | raw
  · exact ⟨nofun, nofun⟩
  · have hok : identity? (.ok raw) = some who ↔ identityOf raw = .ok who := by
      rw [identity?, Program.whoAnswered]
      rcases identityOf raw with e | p <;> simp
    rw [hok, identityOf_eq_ok_iff]
    simp [Outcome.Declares]

/-! ## Whom a connection is given to -/

/-- Whoever has this burden has a connection in hand for that worker. -/
inductive Burden.CarriesFor (l : Nat) (who : Identity) : Burden → Prop where
  | carries : CarriesFor l who (.carries l (some who))
  | found (r : Ref) : CarriesFor l who (.found r l who)
  | announced (r : Ref) (g : Nat) (h : (r.kind, r.id) = who) : CarriesFor l who (.announced r g l)

/-- A connection that a call was started for is kept for one worker: it is in the hands of the call,
or a member of that kind and id has it, or it is closed. -/
inductive Standing.Reserves (s : Standing) (β : Nat → Burden) (c l : Nat) (who : Identity) :
    Prop where
  | inHand (h : (β c).CarriesFor l who)
  | placed (n g : Nat) (h : (s.member n).channel = some ⟨l, g⟩)
      (hwho : ((s.member n).kind, (s.member n).id) = who)
  | closed (h : s.IsClosed l)

section

open Broker

variable {asked : Nat → Operation} {b b' : Broker Result} {m : Move Result} {β β' : Nat → Burden}
  {c l timeout : Nat} {who who' : Identity} {past past₁ past₂ : List (Deed Result)}

theorem Burden.CarriesFor.link? {β₀ : Burden} (h : β₀.CarriesFor l who) : β₀.link? = some l := by
  cases h <;> rfl

/-- In an act the connection stays in hand for the same worker, or a new member of its kind and id
gets it. -/
theorem Burden.CarriesFor.act {licence : Licence Result} {a : Act} {x : a.Answer}
    {β₀ β₁ : Burden} (h : β₀.CarriesFor l who) (ha : β₀.Acts licence a x β₁) :
    β₁.CarriesFor l who ∨ a = .enrol who.1 who.2 l := by
  cases ha with
  | lookUp _ | miss | roster => exact .inl h
  | hit =>
    cases h
    exact .inl (.found _)
  | enrol hf | displace hf =>
    right
    rcases hf with rfl | ⟨r, rfl⟩ <;> cases h <;> rfl
  | announce hf =>
    rcases hf with ⟨-, rfl⟩ | rfl <;> cases h <;> exact .inl (.announced _ _ rfl)
  | _ => cases h

/-- So it does in a turn, or it is offered to a member of the kind and the id. -/
theorem Burden.CarriesFor.turn {licence : Licence Result} {r : Ref} {t : Turn} {x : t.Answer}
    {β₀ β₁ : Burden} (h : β₀.CarriesFor l who) (ht : β₀.Turns licence r t x β₁) :
    β₁.CarriesFor l who ∨ (r.kind, r.id) = who ∧ ∃ g, t = .offer g l ∧ β₁.link? = none := by
  cases ht with
  | taken | superseded =>
    cases h with
    | announced _ _ hwho => exact .inr ⟨hwho, _, rfl, rfl⟩
  | handedBack =>
    cases h with
    | announced _ _ hwho =>
      subst hwho
      exact .inl .carries
  | look => exact .inl h
  | _ => cases h

/-- A connection that is offered and not handed back is the member's, or closed. -/
theorem Standing.Reserves.offered {r : Ref} {g : Nat} (hr : b.standing.Genuine r)
    (hwho : (r.kind, r.id) = who) (hopen : b.standing.IsOpen l)
    (hx : (b.take r.number (.offer g l)).1 ≠ Offered.handedBack) :
    (b.take r.number (.offer g l)).2.standing.Reserves β c l who := by
  have hlt : r.number < (b.standing.disconnect r.number).members.length := by
    rw [Standing.length_disconnect]
    exact hr.1
  rcases ha : (b.take r.number (.offer g l)).1 with _ | _ | _
  · refine .placed r.number g ?_ ?_
    · rw [(take_offer_taken ha).2.2, Standing.member_change_self hlt]
    · obtain ⟨-, hkind, hid⟩ := genuine_take hr r.number (.offer g l)
      rw [hkind, hid, hwho]
  · rw [(take_offer_superseded ha).2.2, standing_hangUp]
    exact .closed (Standing.isClosed_hangUp hopen)
  · exact absurd ha hx

/-- Whatever happens, a connection that is kept for a worker stays so. -/
theorem Standing.Reserves.step (h : b.standing.Reserves β c l who)
    (hasked : asked c = .registerSecondary l) (hm : Stride asked b m β b' β') :
    b'.standing.Reserves β' c l who := by
  have he := hm.effect
  have hheld := hm.before.held
  cases h with
  | closed h => exact .closed (he.isClosed h)
  | placed n g h hwho =>
    -- the kind and the id of a member stay what they are
    have hlt : n < b.standing.members.length := by
      by_contra hlt
      rw [Standing.member_of_length_le (Nat.le_of_not_lt hlt)] at h
      cases h
    obtain ⟨-, hkind, hid⟩ :=
      he.genuine (r := ⟨n, (b.standing.member n).kind, (b.standing.member n).id⟩) ⟨hlt, rfl, rfl⟩
    rcases he.closes hheld h with h' | h'
    · exact .placed n g h' (hwho ▸ Prod.ext hkind hid)
    · exact .closed h'
  | inHand h =>
    have hopen := hheld.hand c l h.link?
    have hother : ∀ {k : Nat} {β₁ : Burden} {s : Standing}, k ≠ c →
        s.Reserves (update β k β₁) c l who := by
      intro k β₁ s hk
      refine .inHand ?_
      rwa [Function.update_of_ne (Ne.symm hk)]
    generalize b'.standing = s' at he
    cases he with
    | still _ | accepted _ | failed _ _ _ _ _ _ | released _ _ _ => exact .inHand h
    | begun op _ _ _ _ =>
      refine hother ?_
      rintro rfl
      rw [hm.before.calls.idle _ (Nat.le_refl _)] at h
      cases h
    | finished k _ hleaves =>
      refine hother ?_
      rintro rfl
      rw [hasked] at hleaves
      cases hleaves
    | greeted k link o _ hβ =>
      refine hother ?_
      rintro rfl
      rw [hβ] at h
      cases h
    | acted k a β₁ _ _ _ ha =>
      by_cases hk : k = c
      · subst hk
        rcases h.act ha with hc | rfl
        · exact .inHand (by rwa [Function.update_self])
        · rw [standing_enrol]
          refine .placed b.standing.members.length 0 ?_ ?_ <;> rw [Standing.member_enrol_new] <;> rfl
      · exact hother hk
    | turned k r turn β₁ _ _ hr ht =>
      by_cases hk : k = c
      · subst hk
        rcases h.turn ht with hc | ⟨hwho, g, rfl, hl⟩
        · exact .inHand (by rwa [Function.update_self])
        · refine .offered hr hwho hopen fun hx => ?_
          have hafter := ht.hand.2
          rw [hl, hx, Turn.handAfter, h.link?] at hafter
          cases hafter
      · exact hother hk

/-- Only the worker that a connection is kept for is served by it. -/
theorem Standing.Reserves.eq_of_serves {r : Ref} (h : b.standing.Reserves β c l who)
    (hc : Course asked b β) (hs : b.Serves who' l r) : who' = who := by
  have hopen := hs.not_isClosed hc.held
  obtain ⟨hreg, hkind, -, g, hch⟩ := hs
  rw [← channel_standing] at hch
  cases h with
  | inHand h => exact absurd h.link? (hc.held.apart _ _ _ hch)
  | closed h => exact absurd h hopen
  | placed n g' h hwho =>
    obtain rfl := hc.held.member _ _ _ _ hch h rfl
    obtain ⟨hid, -, hk, hi⟩ := hc.sound.keyed _ _ hreg
    rw [← hwho, hk, hi]
    exact Prod.ext hkind.symm hid.symm

end

/-! ## What is left of the others -/

/-- If the program goes on, it asks this connection who it is or drops it. -/
def Program.MindsOnly {ω : Type} (l : Nat) : Program ω → Prop
  | .done _ => True
  | .act (.discard k) _ => k = l
  | .wait (.greet k) _ => k = l
  | _ => False

/-- The registry, the members and all other connections are the same. -/
structure Broker.KeepsRest {ω : Type} (b : Broker ω) (l : Nat) (b' : Broker ω) : Prop where
  registry : b'.registry = b.registry
  members : b'.members = b.members
  links : ∀ k, k ≠ l → b'.link k = b.link k

namespace Broker

variable {ω : Type} {a b b' : Broker ω} {m : Move ω} {c l : Nat}

theorem keepsRest_changeLink (b : Broker ω) (l : Nat) (f : Link → Link) :
    b.KeepsRest l (b.changeLink l f) where
  registry := rfl
  members := rfl
  links k hk := by rw [link_changeLink, if_neg fun e => hk e.1]

/-- Calls are neither registered nor connected. -/
theorem KeepsRest.congr (h : b.KeepsRest l a) (hr : b'.registry = a.registry)
    (hm : b'.members = a.members) (hl : b'.links = a.links) : b.KeepsRest l b' where
  registry := hr.trans h.registry
  members := hm.trans h.members
  links k hk := by
    rw [link, hl]
    exact h.links k hk

theorem KeepsRest.refl (b : Broker ω) (l : Nat) : b.KeepsRest l b :=
  ⟨rfl, rfl, fun _ _ => rfl⟩

/-- A call that minds one connection only leaves everything else alone in its next move. -/
theorem keepsRest_of_mindsOnly (hm : b.step m = some b') (hc : b.mover? m = some c)
    (hbrings : ∀ call, b.calls[c]? = some call → call.brings ≠ none)
    (h : ∀ p, b.left? c = some p → p.MindsOnly l) : b.KeepsRest l b' := by
  have hleft : ∀ {ph : Phase ω} {p : Program ω}, b.phase? c = some ph → ph.left? = some p →
      p.MindsOnly l := fun hph hp => h _ ((left?_of_phase hph).trans hp)
  have hsame : ∀ ph, b.KeepsRest l (b.setPhase c ph) := fun ph =>
    (KeepsRest.refl b l).congr rfl rfl rfl
  cases makes_of_step hm with
  | starts program refs brings => exact (KeepsRest.refl b l).congr rfl rfl rfl
  | @runs k p hp =>
    cases hc
    have hminds := hleft hp rfl
    cases p with
    | done x => exact hsame _
    | act a next =>
      cases a with
      | discard k =>
        obtain rfl : k = l := hminds
        exact (b.keepsRest_changeLink k Link.hangUp).congr rfl rfl rfl
      | _ => exact hminds.elim
    | wait w next =>
      cases w with
      | greet k =>
        obtain rfl : k = l := hminds
        rw [stepProgram, beginWait]
        split
        · exact (b.keepsRest_changeLink k _).congr rfl rfl rfl
        · exact hsame _
      | _ => exact hminds.elim
  | turns hn hp =>
    cases hc.symm.trans (mover?_serve hn)
    exact (hleft hp rfl).elim
  | begins hn hp hl =>
    cases hc.symm.trans (mover?_serve hn)
    exact (hleft hp rfl).elim
  | receives ht _ | supersedes ht _ _ | expires ht _ =>
    cases hc
    obtain ⟨legs, next, leg, hp, -⟩ := leg_of_talking? ht
    exact (hleft hp rfl).elim
  | hears hp _ =>
    cases hc
    obtain rfl : _ = l := hleft hp rfl
    exact (b.keepsRest_changeLink _ _).congr rfl rfl rfl
  | givesUp hp _ =>
    cases hc
    exact hsame _
  | abandons hcall _ hb =>
    cases hc
    exact absurd hb (hbrings _ hcall)
  | accepts | signals _ _ | releases _ _ | passes _ => cases hc

end Broker

/-! ## The way of a handshake -/

namespace Program

/-- What a registration does once its connection has answered. -/
def afterHandshake (l : Nat) (o : Outcome) : Program Result :=
  (match whoAnswered o with
    | .ok (kind, id) => registerAs kind id l
    | .error _ => discard l).bind fun _ => .done .done

theorem program_registerSecondary (l : Nat) :
    (Operation.registerSecondary l).program = .wait (.greet l) (afterHandshake l) := rfl

/-- A wait for anything but the answer of a fresh connection. -/
def asksNobody (w : Wait) : Prop := ∀ l, w ≠ .greet l

theorem within_install (kind : WorkerKind) (id : UInt32) (l : Nat) :
    (install kind id l).Within (fun _ => True) asksNobody fun _ => True := by
  refine ⟨trivial, fun x => ?_⟩
  cases x with
  | none => trivial
  | some r => exact ⟨trivial, fun _ => ⟨nofun, fun _ => trivial⟩⟩

theorem within_reconnect (r : Ref) (kind : WorkerKind) (id : UInt32) (l : Nat) :
    (reconnect r kind id l).Within (fun _ => True) asksNobody fun _ => True := by
  refine ⟨trivial, fun g => ⟨nofun, fun x => ?_⟩⟩
  cases x with
  | handedBack => exact within_install kind id l
  | taken | superseded => trivial

theorem within_registerAs (kind : WorkerKind) (id : UInt32) (l : Nat) :
    (registerAs kind id l).Within (fun _ => True) asksNobody fun _ => True := by
  refine ⟨trivial, fun x => ?_⟩
  cases x with
  | none => exact within_install kind id l
  | some r =>
    change Within _ _ _ (if r.kind = kind then reconnect r kind id l else install kind id l)
    split
    · exact within_reconnect r kind id l
    · exact within_install kind id l

/-- Nobody is asked twice who it is. -/
theorem within_afterHandshake (l : Nat) (o : Outcome) :
    (afterHandshake l o).Within (fun _ => True) asksNobody fun _ => True := by
  cases hwho : whoAnswered o with
  | ok who =>
    rw [afterHandshake, hwho]
    exact (within_registerAs who.1 who.2 l).bind fun _ _ => trivial
  | error e =>
    rw [afterHandshake, hwho]
    exact ⟨trivial, fun _ => trivial⟩

/-- A connection that does not declare who it is, is dropped, and that is all. -/
theorem afterHandshake_of_not_declares {l : Nat} {o : Outcome} (h : ∀ who, ¬o.Declares who) :
    afterHandshake l o = .act (.discard l) fun _ => .done .done := by
  have hnone : identity? o = none :=
    Option.eq_none_iff_forall_ne_some.2 fun who hwho => h who (identity?_eq_some_iff.1 hwho)
  rw [identity?] at hnone
  rw [afterHandshake]
  rcases hwho : whoAnswered o with e | who <;> rw [hwho] at hnone
  · rfl
  · cases hnone

end Program

namespace Broker

open Program

variable {asked : Nat → Operation} {b b₁ b' : Broker Result} {m : Move Result} {β : Nat → Burden}
  {c l timeout : Nat} {o : Outcome} {past past₁ past₂ : List (Deed Result)}

/-- A call that has asked a connection who it is has done nothing else before. -/
theorem left?_of_hears (hr : Run (fun _ => Operation.Starts asked) (fresh timeout) past b)
    (hc : asked c = .registerSecondary l) (hh : b.Hears c l o m) :
    b.left? c = some (.wait (.greet l) (afterHandshake l)) := by
  obtain ⟨next, hq⟩ : ∃ next, b.left? c = some (.wait (.greet l) next) := by
    cases m with
    | hear k | giveUp k =>
      obtain ⟨rfl, ⟨deadline, next, hp⟩, -⟩ := hh
      exact ⟨next, left?_of_phase hp⟩
    | run k =>
      obtain ⟨rfl, ⟨next, hp⟩, -⟩ := hh
      exact ⟨next, left?_of_phase hp⟩
    | _ => exact hh.elim
  obtain ⟨steps, q, hq', hpath, -⟩ :=
    hr.hasCome (f := fun k => (asked k).program) (fun _ _ _ _ h => h.2.1) hq
  cases hq.symm.trans hq'
  rw [hc, program_registerSecondary] at hpath
  cases hpath with
  | refl => exact hq
  | wait hpath => exact absurd rfl ((within_afterHandshake l _).leads hpath |>.1 l)

/-- Then it goes on with the answer. -/
theorem left?_after_hears (hr : Run (fun _ => Operation.Starts asked) (fresh timeout) past b)
    (hc : asked c = .registerSecondary l) (hh : b.Hears c l o m) (hm : b.step m = some b') :
    b'.left? c = some (afterHandshake l o) := by
  have hleft := left?_of_hears hr hc hh
  have hnext : ∀ {d : Nat} {next : Outcome → Program Result},
      b.phase? c = some (.greeting l d next) → next = afterHandshake l := fun hp => by
    cases (left?_of_phase hp).symm.trans hleft
    rfl
  cases makes_of_step hm with
  | hears hp hrec =>
    obtain ⟨rfl, ⟨d, next, hp'⟩, rest, hrec'⟩ := hh
    cases hp.symm.trans hp'
    cases hrec.symm.trans hrec'
    obtain rfl := hnext hp
    exact left?_of_phase (phase?_setPhase_self (b := b.changeLink _ _) hp)
  | givesUp hp _ =>
    obtain ⟨rfl, ⟨d, next, hp'⟩, rfl⟩ := hh
    cases hp.symm.trans hp'
    obtain rfl := hnext hp
    exact left?_of_phase (phase?_setPhase_self hp)
  | runs hp =>
    obtain ⟨rfl, ⟨next, hp'⟩, hw, rfl⟩ := hh
    cases hp.symm.trans hp'
    cases (left?_of_phase hp).symm.trans hleft
    simp only [stepProgram, beginWait, hw, Bool.false_eq_true, if_false]
    exact left?_of_phase (phase?_setPhase_self hp)
  | _ => exact hh.elim

/-- A registration whose connection does not declare who it is minds that connection only. -/
theorem mindsOnly_of_not_declares {p : Program Result} {d : Deed Result}
    (hr : Run (fun _ => Operation.Starts asked) (fresh timeout) (past₁ ++ ⟨b₁, m⟩ :: past₂) b)
    (hc : asked c = .registerSecondary l) (hh : b₁.Hears c l o m)
    (hno : ∀ who, ¬o.Declares who) (hd : d ∈ past₁ ++ ⟨b₁, m⟩ :: past₂)
    (hp : d.before.left? c = some p) : p.MindsOnly l := by
  obtain ⟨b₂, hr₁, hm, hr₂, hrest⟩ := hr.at_move
  have hasks := left?_of_hears hr₁ hc hh
  rcases List.mem_append.1 hd with hd | hd
  · -- before the connection has answered, it is still to be asked
    obtain ⟨past₃, past₄, rfl, hr₃, hr₄⟩ := hr₁.cut hd
    obtain ⟨steps, q, hq, hpath, -⟩ :=
      hr₃.hasCome (f := fun k => (asked k).program) (fun _ _ _ _ h => h.2.1) hp
    cases hp.symm.trans hq
    rw [hc, program_registerSecondary] at hpath
    cases hpath with
    | refl => exact rfl
    | wait hpath =>
      rcases hr₃.leads hr₄ hp with hgone | ⟨steps', q', hq', hpath', -⟩
      · cases (left?_of_phase hgone).symm.trans hasks
      · cases hq'.symm.trans hasks
        exact absurd rfl (((within_afterHandshake l _).leads hpath).leads hpath' |>.1 l)
  · rcases List.mem_cons.1 hd with rfl | hd
    · cases hp.symm.trans hasks
      exact rfl
    · -- afterwards it is dropped, and that is all
      obtain ⟨past₃, past₄, rfl, hr₃, -⟩ := hrest.cut hd
      have hafter := left?_after_hears hr₁ hc hh hm
      rw [afterHandshake_of_not_declares hno] at hafter
      rcases hr₂.leads hr₃ hafter with hgone | ⟨steps, q, hq, hpath, -⟩
      · cases (left?_of_phase hgone).symm.trans hp
      · cases hp.symm.trans hq
        cases hpath with
        | refl => exact rfl
        | act hpath =>
          obtain ⟨-, rfl⟩ := hpath.of_done
          trivial

theorem Run.exists_course (hr : Run (fun _ => Operation.Starts asked) (fresh timeout) past b) :
    ∃ β, Course asked b β := by
  obtain ⟨β, hcourse, -⟩ := hr.course (P := fun _ _ _ => True) (fun _ _ _ h => h)
    (Course.fresh asked timeout) trivial fun _ _ _ _ _ _ _ _ _ => trivial
  exact ⟨β, hcourse⟩

/-- A connection that is closed stays so. -/
theorem Run.isClosed {a : Broker Result} (hr : Run (fun _ => Operation.Starts asked) a past b)
    (ha : Course asked a β) (h : a.standing.IsClosed l) : b.standing.IsClosed l := by
  obtain ⟨β', -, hclosed⟩ := hr.course (P := fun _ b _ => b.standing.IsClosed l)
    (fun _ _ _ h => h) ha h fun _ _ _ _ _ _ h _ hm => hm.effect.isClosed h
  exact hclosed

/-- A connection that was dropped in a run is closed. -/
theorem isClosed_of_discarded {d : Deed Result} {next : Unit → Program Result}
    (hr : Run (fun _ => Operation.Starts asked) (fresh timeout) past b) (hd : d ∈ past)
    (hmove : d.move = .run c)
    (hp : d.before.phase? c = some (.running (.act (.discard l) next))) :
    b.standing.IsClosed l := by
  obtain ⟨past₃, past₄, rfl, -, -⟩ := hr.cut hd
  obtain ⟨b₂, hr₁, hm, hr₂, hrest⟩ := hr.at_move
  obtain ⟨β, hcourse⟩ := hr₁.exists_course
  obtain ⟨β₂, hcourse₂⟩ := hr₂.exists_course
  refine hrest.isClosed hcourse₂ ?_
  -- whoever drops a connection has it in hand, so it was open
  obtain ⟨call, hcall, hph⟩ := exists_call_of_phase hp
  obtain ⟨-, hobeys⟩ := hph ▸ hcourse.calls.bears c call hcall
  obtain ⟨β', hacts, -⟩ := hobeys () trivial
  have hopen := hcourse.held.hand c l (hacts.hand.1 l rfl)
  rw [hmove] at hm
  cases makes_of_step hm with
  | runs hp' =>
    cases hp.symm.trans hp'
    change (d.before.hangUp l).standing.IsClosed l
    rw [standing_hangUp]
    exact Standing.isClosed_hangUp hopen

/-- A registration that is told nothing ends with the connection closed. -/
theorem isClosed_of_not_declares {x : Result}
    (hr : Run (fun _ => Operation.Starts asked) (fresh timeout) (past₁ ++ ⟨b₁, m⟩ :: past₂) b)
    (hc : asked c = .registerSecondary l) (hh : b₁.Hears c l o m)
    (hno : ∀ who, ¬o.Declares who) (hx : b.phase? c = some (.finished x)) :
    b.standing.IsClosed l := by
  obtain ⟨b₂, hr₁, hm, hr₂, hrest⟩ := hr.at_move
  have hafter := left?_after_hears hr₁ hc hh hm
  rw [afterHandshake_of_not_declares hno] at hafter
  rcases hr₂.leads hrest hafter with hgone | ⟨steps, q, hq, hpath, hmade⟩
  · cases hgone.symm.trans hx
  · cases (left?_of_phase hx).symm.trans hq
    cases hpath with
    | act hpath =>
      obtain ⟨d, hd, hmove, ⟨next, hp⟩, -⟩ := hmade _ List.mem_cons_self
      rw [List.append_assoc] at hd
      exact isClosed_of_discarded hr hd hmove hp

/-- What a worker connects with after it has declared who it is, is kept for it. -/
theorem Run.reserves {who : Identity}
    (hr : Run (fun _ => Operation.Starts asked) (fresh timeout) (past₁ ++ ⟨b₁, m⟩ :: past₂) b)
    (hc : asked c = .registerSecondary l) (hid : b₁.Identifies asked c l who m) :
    ∃ β, Course asked b β ∧ b.standing.Reserves β c l who := by
  obtain ⟨b₂, hr₁, hm, hr₂, hrest⟩ := hr.at_move
  obtain ⟨-, hstarts, -⟩ := hr₂.of_snoc
  obtain ⟨β₁, hcourse₁⟩ := hr₁.exists_course
  obtain ⟨β₂, hstride⟩ := hcourse₁.move hstarts hm
  have hcarries := (hid.effect hcourse₁ hstride.effect).1
  refine hrest.course (P := fun _ b β => b.standing.Reserves β c l who) (fun _ _ _ h => h)
    hstride.after (.inHand ?_) fun _ _ _ _ _ _ h _ hm => h.step hc hm
  rw [hcarries]
  exact .carries

theorem identifies_of_declares {who : Identity} (hh : b.Hears c l o m) (h : o.Declares who) :
    b.Identifies asked c l who m := by
  have hid := identity?_eq_some_iff.2 h
  obtain ⟨raw, reply, rfl, -⟩ := h
  exact .inr ⟨raw, hh, hid⟩

/-- A handshake registers exactly what the worker has declared. Only the worker that was declared is
ever served by the connection, and if nobody else registers, ends or drops a worker of the id and the
connection does not fail, it is in the end. If nothing was declared, be it that there was no reply,
that the reply is an error or not of the form, or that the kind is unknown or the id the primary's,
the connection is closed in the end, and no move of the registration changes the registry, a member
or another connection. A reply is read as one kind at most, so it does not matter in which order the
kinds are tried. -/
theorem registered_iff_declared {x : Result}
    (hr : Run (fun _ => Operation.Starts asked) (fresh timeout) (past₁ ++ ⟨b₁, m⟩ :: past₂) b)
    (hc : asked c = .registerSecondary l) (hh : b₁.Hears c l o m)
    (hx : b.phase? c = some (.finished x)) :
    (∀ who, (∃ r, b.Serves who l r) → o.Declares who) ∧
      (∀ who, o.Declares who →
        (∀ d ∈ past₂, ∀ k, d.before.IsActive k → k ≠ c →
          ¬Engaged asked (past₁ ++ ⟨b₁, m⟩ :: past₂) who.2 k) →
        (∀ t s, .ended t l (.error s) ∉ log past₂) → ∃ r, b.Serves who l r) ∧
      ((∀ who, ¬o.Declares who) → b.standing.IsClosed l ∧
        ∀ d ∈ past₁ ++ ⟨b₁, m⟩ :: past₂, d.before.mover? d.move = some c →
          ∀ b', d.before.step d.move = some b' → d.before.KeepsRest l b') ∧
      ∀ reply, (∀ kind kind' id id', declaredAs? kind reply = some id →
          declaredAs? kind' reply = some id' → kind = kind') ∧
        ∀ order : List WorkerKind, order.Perm identifyOrder →
          identifyIn order reply = identify? reply := by
  refine ⟨?_, ?_, ?_, fun reply => ⟨fun _ _ _ _ => kind_of_declaredAs?, fun _ hp =>
    identifyIn_of_perm hp reply⟩⟩
  · rintro who ⟨r, hserves⟩
    by_cases hno : ∀ who, ¬o.Declares who
    · obtain ⟨β, hcourse⟩ := hr.exists_course
      exact absurd (isClosed_of_not_declares hr hc hh hno hx) (hserves.not_isClosed hcourse.held)
    · obtain ⟨who', hwho'⟩ := not_forall_not.1 hno
      obtain ⟨β, hcourse, hreserves⟩ := hr.reserves hc (identifies_of_declares hh hwho')
      rw [hreserves.eq_of_serves hcourse hserves]
      exact hwho'
  · intro who hwho halone hfail
    obtain ⟨β, hcourse, hplaced⟩ := hr.placed (fun _ => False) (identifies_of_declares hh hwho)
      (fun _ => False.elim) halone hfail
    cases hplaced.settled hcourse.calls hx with
    | kept r _ hreg hwho' hret hch =>
      subst hwho'
      exact ⟨r, hreg, rfl, by rwa [← retired_standing], by simpa only [← channel_standing] using hch⟩
    | lost r _ _ hk => exact hk.elim fun _ hk => hk.1.elim
  · intro hno
    refine ⟨isClosed_of_not_declares hr hc hh hno hx, fun d hd hmover b' hm => ?_⟩
    obtain ⟨past₃, past₄, -, hr₃, -⟩ := hr.cut hd
    obtain ⟨β, hcourse⟩ := hr₃.exists_course
    refine keepsRest_of_mindsOnly hm hmover (fun call hcall => ?_) fun p hp =>
      mindsOnly_of_not_declares hr hc hh hno hd hp
    rw [hcourse.calls.brings c call hcall, hc]
    exact Option.some_ne_none l

/-- A worker connects again while a sweep retires its member. -/
theorem registered_iff_declared_when_returning :
    ∃ past b, Run (fun _ => Operation.Starts nfvReturns) (fresh 5) past b ∧
      ∃ o : Outcome, o.Declares (.nfv, 1) ∧ (∃ r, b.Serves (.nfv, 1) 1 r) ∧
        ∀ who, (∃ r, b.Serves who 1 r) → o.Declares who := by
  obtain ⟨past, b, hr, harrives, hover⟩ :
      ∃ past b, Run (fun _ => Operation.Starts nfvReturns) (fresh 5) past b ∧
        Arrives nfvReturns (fun _ => False) 18 2 1 (.nfv, 1) past ∧ (b.result? 2).isSome :=
    exists_run_of_play (fun _ _ => True) nfvReturns.script (fun _ _ _ h _ => h) (by decide +kernel)
  obtain ⟨past₁, b₁, m, past₂, rfl, -, hid, halone, hfail⟩ := harrives.split
  obtain ⟨x, hx⟩ := Option.isSome_iff_exists.1 hover
  obtain ⟨raw, hhears, hwho⟩ := hid.resolve_left fun h => by cases h.2.2.1
  have hdeclares := identity?_eq_some_iff.1 hwho
  obtain ⟨honly, hserved, -⟩ :=
    registered_iff_declared hr (c := 2) rfl hhears (phase?_of_result? hx)
  exact ⟨_, b, hr, _, hdeclares, hserved _ hdeclares halone hfail, honly⟩

end Broker

end WorkerBroker
