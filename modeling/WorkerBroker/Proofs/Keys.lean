import Mathlib.Logic.Function.Basic
import WorkerBroker.Proofs.Judgements
import WorkerBroker.Proofs.Refusals
/-!
# Keys of orders

The command that a body describes depends on a few of its keys only, and `Order.keys` lists them:
some that are always needed, and with an order for a component or the classifier table sometimes the
key `vlan`. Which these are is read off the body itself, so it has to be shown that bodies which
agree on the keys of one of them come to the same command (`Order.command_congr`); a body that is
not an object has no keys at all, like the empty one.

The other part of a request that matters is its length, since a body that is too long is not read.
Two requests for the same order that agree on both cannot be told apart (`Service.alike_of_keys`):
what may happen with one of them, with all lines and answers and in any state, may happen with the
other.
-/

namespace WorkerBroker

/-- Two values have the same under some keys, or both nothing. -/
def Json.AgreesOn (v : Json) (keys : List String) (w : Json) : Prop :=
  ∀ key ∈ keys, v.member? key = w.member? key

/-- Two results are the same if they come from the same one in the same way. -/
theorem Except.bind_congr_ok {ε α β : Type} {x y : Except ε α} {f g : α → Except ε β} (hxy : x = y)
    (h : ∀ a, y = .ok a → f a = g a) : x >>= f = y >>= g := by
  subst hxy
  cases x with
  | error e => rfl
  | ok a => exact h a rfl

/-! ## Readers -/

namespace Body

variable {v w : Json} {key : String}

theorem require_congr (h : v.member? key = w.member? key) : require v key = require w key := by
  rw [require, require, h]

theorem requireAs_congr {α : Type} (h : v.member? key = w.member? key)
    (narrow : Json → Option α) : requireAs v key narrow = requireAs w key narrow := by
  rw [requireAs, requireAs, require_congr h]

theorem name_congr (h : v.member? key = w.member? key) : name v key = name w key := by
  rw [name, name, text, text, requireAs_congr h]

theorem choice_congr (h : v.member? key = w.member? key) (choices : List String) :
    choice v key choices = choice w key choices := by
  rw [choice, choice, text, text, requireAs_congr h]

theorem port_congr (h : v.member? key = w.member? key) : port v key = port w key := by
  rw [port, port, text, text, requireAs_congr h]

theorem mac_congr (h : v.member? key = w.member? key) : mac v key = mac w key := by
  rw [mac, mac, text, text, requireAs_congr h]

theorem vlanId_congr (h : v.member? key = w.member? key) : vlanId v key = vlanId w key := by
  rw [vlanId, vlanId, h]

theorem vlanTag_congr (h : v.member? "vlan" = w.member? "vlan") : vlanTag v = vlanTag w := by
  rw [vlanTag, vlanTag, h]

theorem requireAll_congr {keys : List String} (h : v.AgreesOn keys w) :
    requireAll v keys = requireAll w keys := by
  induction keys with
  | nil => rfl
  | cons key keys ih =>
    obtain ⟨hkey, hkeys⟩ := List.forall_mem_cons.1 h
    rw [requireAll, requireAll, hkey, ih hkeys]

/-- What was chosen is one of the choices, and the body has it there. -/
theorem of_choice {choices : List String} {s : String} (h : choice v key choices = .ok s) :
    s ∈ choices ∧ Order.hasText v key s := by
  rw [choice, text, requireAs, require] at h
  rcases hv : v.member? key with _ | value <;> rw [hv] at h
  · cases h
  · rcases hs : value.asString? with _ | t <;> simp only [hs] at h
    · cases h
    · simp only [Except.bind] at h
      split at h <;> cases h
      exact ⟨‹_›, by simp [Order.hasText, hv, hs]⟩

end Body

/-! ## Orders -/

namespace Order

variable {kind : WorkerKind} {v w : Json} {o : Order}

theorem hasText_iff {key s : String} : hasText v key s ↔ v.member? key = some (.string s) := by
  simp [hasText, Option.bind_eq_some_iff, Json.asString?_eq_some_iff]

theorem requiredKeys_subset_keys : o.requiredKeys ⊆ o.keys kind v := by
  cases o with
  | componentPort name | classifierTable =>
    rw [keys]
    split
    · exact List.subset_append_left _ _
    · exact List.Subset.refl _
  | _ => exact List.Subset.refl _

/-- Bodies that agree on the keys of an order agree on those that must be there. -/
theorem agreesOn_requiredKeys (h : v.AgreesOn (o.keys kind v) w) :
    w.AgreesOn o.requiredKeys v := by
  intro key hkey
  exact (h key (requiredKeys_subset_keys hkey)).symm

/-- An order for the primary has the same keys whoever it is for. -/
theorem keys_of_suits_primary (h : o.Suits .primary) (kind kind' : WorkerKind) :
    o.keys kind v = o.keys kind' v := by
  cases o with
  | componentPort name | classifierTable => simp [Suits] at h
  | _ => rfl

/-- The key for a tag is looked at when a port is attached to a component of a `vf`. -/
theorem vlan_mem_keys_componentPort {name : String} (hk : kind = .vf)
    (ha : hasText v "action" "attach") : "vlan" ∈ (componentPort name).keys kind v := by
  simp [keys, hk, ha]

/-- And so is it when the entry of the classifier table has one. -/
theorem vlan_mem_keys_classifierTable (ht : hasText v "type" "vlan") :
    "vlan" ∈ classifierTable.keys kind v := by
  simp [keys, ht]

theorem componentPortCommand_congr {name : String}
    (h : v.AgreesOn ((componentPort name).keys kind v) w) :
    componentPortCommand kind name w = componentPortCommand kind name v := by
  have hkey := agreesOn_requiredKeys h
  refine Except.bind_congr_ok (Body.choice_congr (hkey "action" (by simp [requiredKeys])) _)
    fun action ha => ?_
  refine Except.bind_congr_ok (Body.choice_congr (hkey "dir" (by simp [requiredKeys])) _)
    fun dir _ => Except.bind_congr_ok rfl fun direction _ => ?_
  refine Except.bind_congr_ok (Body.port_congr (hkey "port" (by simp [requiredKeys])))
    fun port _ => ?_
  -- the tag is read only where its key is looked at
  by_cases hattach : action = "attach"
  · rw [if_pos hattach, if_pos hattach]
    by_cases hk : kind = .vf
    · rw [if_pos hk, if_pos hk]
      subst hattach
      have hvlan := h "vlan" (vlan_mem_keys_componentPort hk (Body.of_choice ha).2)
      exact Except.bind_congr_ok (Body.vlanTag_congr hvlan.symm) fun _ _ => rfl
    · rw [if_neg hk, if_neg hk]
  · rw [if_neg hattach, if_neg hattach]

theorem classifierTableCommand_congr (h : v.AgreesOn (classifierTable.keys kind v) w) :
    classifierTableCommand w = classifierTableCommand v := by
  have hkey := agreesOn_requiredKeys h
  refine Except.bind_congr_ok (Body.choice_congr (hkey "action" (by decide)) _) fun action _ => ?_
  refine Except.bind_congr_ok (Body.choice_congr (hkey "type" (by decide)) _) fun type ht => ?_
  refine Except.bind_congr_ok (Body.port_congr (hkey "port" (by decide))) fun port _ => ?_
  refine Except.bind_congr_ok (Body.mac_congr (hkey "mac_address" (by decide))) fun mac _ => ?_
  -- so is the id of a VLAN
  by_cases hmac : type = "mac"
  · rw [if_pos hmac, if_pos hmac]
  · obtain ⟨hmem, hvlan⟩ := Body.of_choice ht
    obtain rfl : type = "vlan" := by simpa [hmac] using hmem
    have hkeys := h "vlan" (vlan_mem_keys_classifierTable hvlan)
    rw [if_neg hmac, if_neg hmac, Body.vlanId_congr hkeys]

theorem commandOf_congr (h : v.AgreesOn (o.keys kind v) w) :
    o.commandOf kind w = o.commandOf kind v := by
  have hkey := agreesOn_requiredKeys h
  cases o with
  | forward | capture =>
    exact Except.bind_congr_ok (Body.choice_congr (hkey "action" (by decide)) _) fun _ _ => rfl
  | port =>
    refine Except.bind_congr_ok (Body.choice_congr (hkey "action" (by decide)) _) fun action _ => ?_
    exact Except.bind_congr_ok (Body.port_congr (hkey "port" (by decide))) fun _ _ => rfl
  | patch =>
    refine Except.bind_congr_ok (Body.port_congr (hkey "src" (by decide))) fun src _ => ?_
    exact Except.bind_congr_ok (Body.port_congr (hkey "dst" (by decide))) fun _ _ => rfl
  | launch =>
    refine Except.bind_congr_ok (Body.requireAs_congr (hkey "client_id" (by decide)) _)
      fun id _ => ?_
    refine Except.bind_congr_ok (Body.name_congr (hkey "proc_name" (by decide))) fun app _ => ?_
    refine Except.bind_congr_ok (Body.requireAs_congr (hkey "eal" (by decide)) _) fun eal _ => ?_
    exact Except.bind_congr_ok (Body.requireAs_congr (hkey "app" (by decide)) _) fun _ _ => rfl
  | startComponent =>
    refine Except.bind_congr_ok (Body.name_congr (hkey "name" (by decide))) fun name _ => ?_
    refine Except.bind_congr_ok (Body.requireAs_congr (hkey "core" (by decide)) _) fun core _ => ?_
    exact Except.bind_congr_ok (Body.requireAs_congr (hkey "type" (by decide)) _) fun _ _ => rfl
  | componentPort name => exact componentPortCommand_congr h
  | classifierTable => exact classifierTableCommand_congr h

theorem requireAll_congr (h : v.AgreesOn (o.keys kind v) w) :
    Body.requireAll w o.requiredKeys = Body.requireAll v o.requiredKeys :=
  Body.requireAll_congr (agreesOn_requiredKeys h)

/-- Bodies that agree on the keys of an order come to the same command, or to the same failure. -/
theorem command_congr (h : v.AgreesOn (o.keys kind v) w) : o.command kind w = o.command kind v :=
  Except.bind_congr_ok rfl fun _ _ =>
    Except.bind_congr_ok (requireAll_congr h) fun _ _ => commandOf_congr h

/-- A value that is not an object has the keys of the empty object. -/
theorem agreesOn_of_not_object (h : ∀ members, v ≠ .object members) (keys : List String) :
    v.AgreesOn keys (.object []) := by
  intro key _
  cases v with
  | object members => exact absurd rfl (h members)
  | _ => rfl

/-- The tag of a body is not looked at: nothing is attached to a `vf`, and no entry is for a
VLAN. -/
inductive LeavesTag (kind : WorkerKind) (v : Json) : Order → Prop where
  /-- whatever is for a mirror -/
  | mirror (o : Order) (hk : kind = .mirror) : LeavesTag kind v o
  | detach (name : String) (ha : hasText v "action" "detach") :
      LeavesTag kind v (.componentPort name)
  | mac (ht : hasText v "type" "mac") : LeavesTag kind v .classifierTable

/-- A body has one text under a key. -/
theorem not_hasText {key s t : String} (h : hasText v key s) (hne : s ≠ t) : ¬hasText v key t := by
  rw [hasText_iff] at h ⊢
  rw [h]
  simpa using hne

theorem LeavesTag.vlan_not_mem_keys (h : LeavesTag kind v o) (hs : o.Suits kind) :
    "vlan" ∉ o.keys kind v := by
  cases h with
  | mirror _ hk =>
    subst hk
    -- only two orders are for mirrors
    cases o with
    | startComponent | componentPort name => simp [keys, requiredKeys]
    | _ => simp [Suits] at hs
  | detach name ha => simp [keys, requiredKeys, not_hasText ha (t := "attach") (by decide)]
  | mac ht => simp [keys, requiredKeys, not_hasText ht (t := "vlan") (by decide)]

end Order

/-! ## Requests -/

/-- A request is for an order to a worker, and its body is JSON of this value. -/
structure Request.Brings (request : Request) (a : Address) (o : Order) (v : Json) : Prop where
  errand : request.errand? = some (.worker a (.order o))
  parse : Body.parse request.body = .ok v

/-- The bodies of two requests are both read, or both too long. -/
def Request.FitsAs (r r' : Request) : Prop :=
  r.body.length ≤ bodyLimit ↔ r'.body.length ≤ bodyLimit

theorem Request.Brings.suits {request : Request} {a : Address} {o : Order} {v : Json}
    (h : request.Brings a o v) : o.Suits a.kind :=
  (Request.suits_of_errand? h.errand).2.2

namespace Gateway

variable {a : Address} {o : Order} {v w : Json}

/-- What is done with a member depends on what is done with members of the kind that the path gives,
or with any for the primary. -/
theorem withMember_congr {f g : Ref → Program Response}
    (h : ∀ r : Ref, a = .primary ∨ r.kind = a.kind → f r = g r) :
    withMember a f = withMember a g := by
  cases a with
  | primary =>
    obtain rfl : f = g := funext fun r => h r (.inl rfl)
    rfl
  | secondary kind id =>
    simp only [withMember, Address.resolve]
    rcases readU32 id with _ | n
    · rfl
    · refine congrArg (Program.act (.find n)) (funext fun found => ?_)
      rcases found with _ | r
      · rfl
      · change (if _ then _ else _ : Program (Except Failure Ref)).bind _ =
          (if _ then _ else _ : Program (Except Failure Ref)).bind _
        split
        · rename_i hkind
          rw [Bool.and_eq_true, decide_eq_true_eq] at hkind
          exact h r (.inr hkind.1)
        · rfl

theorem send_congr (hs : o.Suits a.kind) (h : v.AgreesOn (o.keys a.kind v) w) :
    send a (fun kind => o.command kind w) = send a (fun kind => o.command kind v) := by
  refine withMember_congr fun r hr => ?_
  have hkeys : o.keys r.kind v = o.keys a.kind v := by
    rcases hr with rfl | hkind
    · exact Order.keys_of_suits_primary hs _ _
    · rw [hkind]
  have hcommand : o.command r.kind w = o.command r.kind v := Order.command_congr (hkeys ▸ h)
  simp only [hcommand]

/-- Bodies that agree on the keys of an order have the same done for them. -/
theorem carryOut_congr {bytes bytes' : Bytes} (hs : o.Suits a.kind) (hv : Body.parse bytes = .ok v)
    (hw : Body.parse bytes' = .ok w) (hl : bytes.length ≤ bodyLimit ↔ bytes'.length ≤ bodyLimit)
    (h : v.AgreesOn (o.keys a.kind v) w) : carryOut a o bytes' = carryOut a o bytes := by
  by_cases hlong : bodyLimit < bytes.length
  · have hlong' : bodyLimit < bytes'.length := by omega
    rw [carryOut_of_long hlong, carryOut_of_long hlong']
  · have hlong' : ¬bodyLimit < bytes'.length := by omega
    rw [carryOut, carryOut, if_neg hlong, if_neg hlong', hv, hw]
    simp only [Order.requireAll_congr h, send_congr hs h]

theorem handle_congr {r r' : Request} (hr : r.Brings a o v) (hr' : r'.Brings a o w)
    (hl : r.FitsAs r') (h : v.AgreesOn (o.keys a.kind v) w) (layout : List Socket) :
    handle layout r' = handle layout r := by
  rw [handle_of_errand? hr.errand nofun, handle_of_errand? hr'.errand nofun]
  exact congrArg (Program.bind · .done) (carryOut_congr hr.suits hr.parse hr'.parse hl h)

end Gateway

namespace Service

open Broker

open Function (update)

/-- It makes no difference which of two services is asked for: what may happen from some state on
with the one, move by move and state by state, may happen with the other. -/
def Alike (s s' : Service) : Prop :=
  ∀ (asked : Nat → Service) (c : Nat) (a : Broker Upshot) (past : List (Deed Upshot))
    (b : Broker Upshot),
    Run (fun _ => Starts (update asked c s)) a past b ↔
      Run (fun _ => Starts (update asked c s')) a past b

theorem starts_of_program {s s' : Service} {asked : Nat → Service} {c : Nat} {b : Broker Upshot}
    {m : Move Upshot} (hp : s.program = s'.program) (hr : s.refs = s'.refs)
    (hb : s.brings = s'.brings) (h : Starts (update asked c s) b m) :
    Starts (update asked c s') b m := by
  cases m with
  | start program refs brings =>
    by_cases hc : b.calls.length = c
    · simp only [Starts, Admits, hc, Function.update_self] at h ⊢
      rwa [← hp, ← hr, ← hb]
    · simp only [Starts, Function.update_of_ne hc] at h ⊢
      exact h
  | _ => trivial

/-- What may be started one after the other may be started so where more may be started. -/
theorem run_of_starts {asked asked' : Nat → Service} {a b : Broker Upshot}
    {past : List (Deed Upshot)} (h : ∀ b m, Starts asked b m → Starts asked' b m)
    (hr : Run (fun _ => Starts asked) a past b) : Run (fun _ => Starts asked') a past b := by
  induction hr with
  | nil => exact .nil
  | snoc m _ hm hstep ih => exact .snoc m ih (h _ m hm) hstep

/-- Services with the same program, handles and connection are alike. -/
theorem alike_of_program {s s' : Service} (hp : s.program = s'.program) (hr : s.refs = s'.refs)
    (hb : s.brings = s'.brings) : Alike s s' := by
  intro asked c a past b
  constructor
  · apply run_of_starts
    intro b m
    exact starts_of_program hp hr hb
  · apply run_of_starts
    intro b m
    exact starts_of_program hp.symm hr.symm hb.symm

variable {r r' : Request} {a : Address} {o : Order} {v w : Json}

/-- Requests for one order are alike if they agree on its keys. -/
theorem alike_of_agreesOn (hr : r.Brings a o v) (hr' : r'.Brings a o w) (hl : r.FitsAs r')
    (h : v.AgreesOn (o.keys a.kind v) w) (layout : List Socket) :
    Alike (.request layout r) (.request layout r') := by
  refine alike_of_program ?_ rfl rfl
  rw [program, program, Gateway.handle_congr hr hr' hl h]

/-- Two requests for one order cannot be told apart, if their bodies are JSON with the same under
the keys of the order and are both read or both too long. In particular a body that is not an object
is as good as the empty object, and the tag is of no account for a mirror, for a port that is
detached and for an entry of the classifier table that is not for a VLAN. -/
theorem alike_of_keys :
    (∀ r r' a o v w, Request.Brings r a o v → Request.Brings r' a o w → r.FitsAs r' →
      v.AgreesOn (o.keys a.kind v) w →
      ∀ layout, Alike (.request layout r) (.request layout r')) ∧
    (∀ r r' a o v, Request.Brings r a o v → Request.Brings r' a o (.object []) → r.FitsAs r' →
      (∀ members, v ≠ .object members) →
      ∀ layout, Alike (.request layout r) (.request layout r')) ∧
    ∀ r r' a o v w, Request.Brings r a o v → Request.Brings r' a o w → r.FitsAs r' →
      Order.LeavesTag a.kind v o → (∀ key, key ≠ "vlan" → v.member? key = w.member? key) →
      ∀ layout, Alike (.request layout r) (.request layout r') := by
  refine ⟨?_, ?_, ?_⟩
  · intro r r' a o v w hr hr' hl h
    exact alike_of_agreesOn hr hr' hl h
  · intro r r' a o v hr hr' hl h
    exact alike_of_agreesOn hr hr' hl (Order.agreesOn_of_not_object h _)
  · intro r r' a o v w hr hr' hl htag h
    refine alike_of_agreesOn hr hr' hl fun key hkey => h key ?_
    rintro rfl
    exact htag.vlan_not_mem_keys hr.suits hkey

/-- A body has these texts under these keys. -/
def HasTexts (bytes : Bytes) (texts : List (String × String)) : Bool :=
  (Body.parse bytes).toOption.any fun v => texts.all fun t => Order.hasText v t.1 t.2

/-- Bodies with the same texts agree on their keys. -/
theorem exists_agreesOn_of_hasTexts {bytes bytes' : Bytes} {texts : List (String × String)}
    (h : HasTexts bytes texts) (h' : HasTexts bytes' texts) :
    ∃ v w, Body.parse bytes = .ok v ∧ Body.parse bytes' = .ok w ∧
      v.AgreesOn (texts.map Prod.fst) w := by
  obtain ⟨v, hv, hall⟩ := (Option.any_eq_true _ _).1 h
  obtain ⟨w, hw, hall'⟩ := (Option.any_eq_true _ _).1 h'
  refine ⟨v, w, Except.eq_ok_of_toOption hv, Except.eq_ok_of_toOption hw, ?_⟩
  refine List.forall_mem_map.2 fun t ht => ?_
  rw [Order.hasText_iff.1 (List.all_eq_true.1 hall t ht),
    Order.hasText_iff.1 (List.all_eq_true.1 hall' t ht)]

/-- What is needed to attach a port. -/
def attachTexts : List (String × String) :=
  [("action", "attach"), ("port", "ring:0"), ("dir", "rx")]

/-- A request to attach a port to a component of a mirror, with more members of its body. -/
def attachRequest (more : String) : Request :=
  ⟨.put, .ofText "/v1/mirrors/1/components/m/ports",
    ("\x7b\"action\":\"attach\",\"dir\":\"rx\",\"port\":\"ring:0\"" ++ more ++
      "\x7d").toUTF8.toList⟩

theorem errand?_attachRequest (more : String) : (attachRequest more).errand? =
    some (.worker (.secondary .mirror "1") (.order (.componentPort "m"))) := by
  have hroute : (errandFor? .put (routes (attachRequest more).target.segments)).bind
      (fun e => e.decode.toOption) =
        some (.worker (.secondary .mirror "1") (.order (.componentPort "m"))) := by
    change (errandFor? .put (routes
      (Target.ofText "/v1/mirrors/1/components/m/ports").segments)).bind _ = _
    decide +kernel
  exact hroute

/-- A mirror is told the same with a tag that makes no sense and without one. -/
theorem alike_of_keys_at_mirror :
    ∃ v w, (attachRequest "").Brings (.secondary .mirror "1") (.componentPort "m") v ∧
      (attachRequest ",\"vlan\":1").Brings (.secondary .mirror "1") (.componentPort "m") w ∧
      (attachRequest "").FitsAs (attachRequest ",\"vlan\":1") ∧
      Alike (.request [] (attachRequest "")) (.request [] (attachRequest ",\"vlan\":1")) := by
  have htexts : HasTexts (attachRequest "").body attachTexts := by decide +kernel
  have htexts' : HasTexts (attachRequest ",\"vlan\":1").body attachTexts := by decide +kernel
  obtain ⟨v, w, hv, hw, h⟩ := exists_agreesOn_of_hasTexts htexts htexts'
  have hr : (attachRequest "").Brings (.secondary .mirror "1") (.componentPort "m") v :=
    ⟨errand?_attachRequest _, hv⟩
  have hr' : (attachRequest ",\"vlan\":1").Brings (.secondary .mirror "1") (.componentPort "m") w :=
    ⟨errand?_attachRequest _, hw⟩
  have hl : (attachRequest "").FitsAs (attachRequest ",\"vlan\":1") :=
    iff_of_true (by decide +kernel) (by decide +kernel)
  exact ⟨v, w, hr, hr', hl, alike_of_keys.1 _ _ _ _ v w hr hr' hl h []⟩

/-! ### Bodies of different lengths -/

/-- Requests are alike only if the same is done for them. -/
theorem program_eq_of_alike {s s' : Service} (h : Alike s s') (hr : s.refs = [])
    (hb : s.brings = none) : s.program = s'.program := by
  have hstart : Starts (update (fun _ => s) 0 s) (fresh 0) (.start s.program [] none) := by
    simp [Starts, Admits, fresh, hr, hb]
  have hrun := (h (fun _ => s) 0 (fresh 0) _ _).1 (.snoc _ .nil hstart rfl)
  obtain ⟨-, ⟨-, hprogram, -⟩, -⟩ := hrun.of_snoc
  simpa [fresh] using hprogram

/-- A request to launch something, with a body that has no key but maybe blanks. -/
def emptyLaunch (blanks : Nat) : Request :=
  ⟨.put, .ofText "/v1/primary/launch", 0x7b :: (List.replicate blanks 0x20 ++ [0x7d])⟩

theorem parse_of_blanks (blanks : Nat) :
    Body.parse (0x7b :: (List.replicate blanks 0x20 ++ [0x7d])) = .ok (.object []) := by
  have hblanks : skipBlanks (List.replicate blanks 0x20 ++ [0x7d]) = [0x7d] := by
    rw [skipBlanks, List.dropWhile_append_of_pos]
    · rfl
    · intro b hb
      rw [List.eq_of_mem_replicate hb]
      rfl
  have hread : Json.read (0x7b :: (List.replicate blanks 0x20 ++ [0x7d])) = .ok (.object []) := by
    have hopen : skipBlanks (0x7b :: (List.replicate blanks 0x20 ++ [0x7d])) =
        0x7b :: (List.replicate blanks 0x20 ++ [0x7d]) := rfl
    have hend : readEnd [] = .ok () := rfl
    simp [Json.read, Json.readValue, hopen, Json.maxDepth, afterOpenObject, hblanks, hend,
      Except.map]
  rw [Body.parse, hread]
  rfl

theorem emptyLaunch_brings (blanks : Nat) :
    (emptyLaunch blanks).Brings .primary .launch (.object []) where
  errand := by
    have hsegments : (emptyLaunch blanks).target.segments = ["v1", "primary", "launch"] := by
      change (Target.ofText "/v1/primary/launch").segments = _
      decide +kernel
    rw [Request.errand?, hsegments]
    rfl
  parse := parse_of_blanks blanks

/-- Two launches have bodies without keys. One is refused since a key is missing, the other because
its body is too long. -/
theorem told_apart_by_length :
    (emptyLaunch 0).Brings .primary .launch (.object []) ∧
      (emptyLaunch bodyLimit).Brings .primary .launch (.object []) ∧
      (∀ layout, Gateway.handle layout (emptyLaunch 0) =
        .done (.failure (.keyRequired "client_id"))) ∧
      (∀ layout, Gateway.handle layout (emptyLaunch bodyLimit) = .done .bodyTooLong) ∧
      ¬Alike (.request [] (emptyLaunch 0)) (.request [] (emptyLaunch bodyLimit)) := by
  have hshort : ∀ layout, Gateway.handle layout (emptyLaunch 0) =
      .done (.failure (.keyRequired "client_id")) := by
    refine Gateway.handle_of_order (emptyLaunch_brings 0).errand ?_
    rw [Gateway.carryOut, if_neg (by decide), (emptyLaunch_brings 0).parse]
    rfl
  have hlong : ∀ layout, Gateway.handle layout (emptyLaunch bodyLimit) = .done .bodyTooLong := by
    refine Gateway.handle_of_order (emptyLaunch_brings bodyLimit).errand
      (Gateway.carryOut_of_long ?_)
    rw [emptyLaunch, List.length_cons, List.length_append, List.length_replicate]
    omega
  refine ⟨emptyLaunch_brings 0, emptyLaunch_brings bodyLimit, hshort, hlong, fun h => ?_⟩
  have hprogram := program_eq_of_alike h rfl rfl
  rw [program, program, hshort, hlong] at hprogram
  injection hprogram with hresponse
  injection hresponse with hresponse
  have hstatus := congrArg Response.status hresponse
  rw [Response.status_failure] at hstatus
  exact absurd hstatus (by decide)

end Service

end WorkerBroker
