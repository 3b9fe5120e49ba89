import WorkerBroker.Proofs.Sections
/-!
# How a launch is composed

A request gives the options of a launch as two objects, and much may be wrong with them. What is
checked is a list of things, each with the failure that names it (`Launch.checks`): the name, the
options that must be given, and the value of every listed option, in the order of the lists. A launch
is composed if all of it is in order, and then each section holds the listed options that are given,
in the order of the list and each followed by its value (`Launch.written`). Otherwise the first
failure counts (`FirstFault`).

Nothing but the listed options is looked at, so options that are not listed make no difference,
whatever their values are (`Launch.composed_iff_checked`).
-/

namespace WorkerBroker

/-! ## Checks -/

/-- Something that is checked, and the failure if it does not hold. -/
structure Check where
  holds : Prop
  failure : Failure

/-- The failure of the first check that does not hold. -/
inductive FirstFault : List Check → Failure → Prop where
  | here {check : Check} {checks : List Check} (h : ¬check.holds) :
      FirstFault (check :: checks) check.failure
  | later {check : Check} {checks : List Check} {e : Failure} (h : check.holds)
      (hrest : FirstFault checks e) : FirstFault (check :: checks) e

/-- A result is decided by checks: it is this one if all of them hold, and otherwise the first
failure. -/
inductive DecidedBy {α : Type} (checks : List Check) (x : α) : Except Failure α → Prop where
  | passed (h : ∀ check ∈ checks, check.holds) : DecidedBy checks x (.ok x)
  | failed {e : Failure} (h : FirstFault checks e) : DecidedBy checks x (.error e)

section

variable {α β γ : Type} {checks checks' : List Check} {check : Check} {e e' : Failure} {x y : α}
  {z : β} {r : Except Failure α} {s : Except Failure β}

theorem FirstFault.not_passed (h : FirstFault checks e) : ¬∀ check ∈ checks, check.holds := by
  intro hall
  induction h with
  | here h => exact h (hall _ List.mem_cons_self)
  | later h hrest ih => exact ih fun check hc => hall check (List.mem_cons_of_mem _ hc)

theorem FirstFault.unique (h : FirstFault checks e) (h' : FirstFault checks e') : e = e' := by
  induction h with
  | here h =>
    cases h' with
    | here h' => rfl
    | later h' hrest => exact absurd h' h
  | later h hrest ih =>
    cases h' with
    | here h' => exact absurd h h'
    | later h' hrest' => exact ih hrest'

/-- A fault among the first checks comes before all others. -/
theorem FirstFault.append_left (h : FirstFault checks e) (checks' : List Check) :
    FirstFault (checks ++ checks') e := by
  induction h with
  | here h => exact .here h
  | later h hrest ih => exact .later h ih

/-- A fault comes first if nothing is wrong before it. -/
theorem FirstFault.append_right (h : FirstFault checks' e)
    (hall : ∀ check ∈ checks, check.holds) : FirstFault (checks ++ checks') e := by
  induction checks with
  | nil => exact h
  | cons check checks ih =>
    exact .later (hall _ List.mem_cons_self) (ih fun c hc => hall c (List.mem_cons_of_mem _ hc))

namespace DecidedBy

theorem eq_ok_iff (h : DecidedBy checks x r) :
    r = .ok y ↔ (∀ check ∈ checks, check.holds) ∧ y = x := by
  cases h with
  | passed hall =>
    constructor
    · intro hr
      cases hr
      exact ⟨hall, rfl⟩
    · rintro ⟨-, rfl⟩
      rfl
  | failed hfault => exact ⟨nofun, fun hy => absurd hy.1 hfault.not_passed⟩

theorem eq_error_iff (h : DecidedBy checks x r) : r = .error e ↔ FirstFault checks e := by
  cases h with
  | passed hall => exact ⟨nofun, fun hfault => absurd hall hfault.not_passed⟩
  | failed hfault =>
    constructor
    · intro hr
      cases hr
      exact hfault
    · intro hfault'
      rw [hfault.unique hfault']

/-- One check more, before all others. -/
theorem guarded {b : Bool} (hb : b = true ↔ check.holds) (h : DecidedBy checks x r) :
    DecidedBy (check :: checks) x (if !b then .error check.failure else r) := by
  by_cases hc : check.holds
  · rw [hb.2 hc]
    cases h with
    | passed hall => exact .passed (List.forall_mem_cons.2 ⟨hc, hall⟩)
    | failed hfault => exact .failed (.later hc hfault)
  · rw [Bool.eq_false_iff.2 (mt hb.1 hc)]
    exact .failed (.here hc)

/-- First one thing is decided, and then another one. -/
theorem append (h : DecidedBy checks x r) (h' : DecidedBy checks' z s) (f : α → β → γ) :
    DecidedBy (checks ++ checks') (f x z) (r.bind fun x => s.map (f x)) := by
  cases h with
  | failed hfault => exact .failed (hfault.append_left checks')
  | passed hall =>
    cases h' with
    | failed hfault => exact .failed (hfault.append_right hall)
    | passed hall' => exact .passed (List.forall_mem_append.2 ⟨hall, hall'⟩)

end DecidedBy

end

/-! ## Options -/

namespace Launch

/-- The text of a value on a command line: a string stands as it is, anything else as JSON. -/
def rendering : Json → String
  | .string s => s
  | v => v.text

/-- Whether an option with this value is written without one: null, and the empty string. -/
def isBare : Json → Bool
  | .null => true
  | .string s => s = ""
  | _ => false

variable {given given' : Table String Json} {option : String} {listed : List String}

/-- An option as it is written, if it is given: its name, and the text of its value if it has
one. -/
def written (given : Table String Json) (option : String) : List String :=
  match Table.find? option given with
  | none => []
  | some v => if isBare v then [option] else [option, rendering v]

/-- The value of an option, if it is given, must be none or one token. -/
def valueCheck (given : Table String Json) (option : String) : Check where
  holds := ∀ v, Table.find? option given = some v → isBare v ∨ isToken (rendering v)
  failure := .keyInvalid option (((Table.find? option given).map rendering).getD "")

/-- All that is checked of a launch, in order. -/
def checks (app : String) (eal options : Table String Json) : List Check :=
  [⟨isToken app, .keyInvalid "proc_name" app⟩,
    ⟨∃ option ∈ ["-c", "-l", "--lcores"], Table.has option eal, .keyRequired "-c|-l|--lcores"⟩,
    ⟨Table.has "--proc-type" eal, .keyRequired "--proc-type"⟩] ++
    (ealOptions.map (valueCheck eal) ++ (appOptions app).map (valueCheck options))

theorem optionValue_eq (v : Json) :
    optionValue v = if isBare v then none else some (rendering v) := by
  cases v with
  | string s => by_cases hs : s = "" <;> simp [optionValue, isBare, rendering, hs]
  | _ => rfl

/-- One option is decided by its value. -/
theorem decided_optionTokens (given : Table String Json) (option : String) :
    DecidedBy [valueCheck given option] (written given option) (optionTokens given option) := by
  rw [optionTokens, written]
  rcases hv : Table.find? option given with _ | v
  · refine .passed (List.forall_mem_singleton.2 fun v hfound => ?_)
    cases hv.symm.trans hfound
  · have hholds (h : isBare v ∨ isToken (rendering v)) :
        ∀ check ∈ [valueCheck given option], check.holds := by
      refine List.forall_mem_singleton.2 fun u hu => ?_
      cases hv.symm.trans hu
      exact h
    simp only [optionValue_eq]
    by_cases hbare : isBare v
    · rw [if_pos hbare, if_pos hbare]
      exact .passed (hholds (.inl hbare))
    · rw [if_neg hbare, if_neg hbare]
      by_cases htoken : isToken (rendering v)
      · simp only [htoken, if_true]
        exact .passed (hholds (.inr htoken))
      · have hfault : FirstFault [valueCheck given option] (.keyInvalid option (rendering v)) := by
          have hfailure : (valueCheck given option).failure = .keyInvalid option (rendering v) := by
            simp only [valueCheck, hv, Option.map_some, Option.getD_some]
          rw [← hfailure]
          exact .here fun h => (h v hv).elim hbare htoken
        simp only [htoken]
        exact .failed hfault

/-- A section is decided by the values of its options, one after the other. -/
theorem decided_collect (given : Table String Json) (listed : List String) :
    DecidedBy (listed.map (valueCheck given)) (listed.flatMap (written given))
      (collect given listed) := by
  induction listed with
  | nil => exact .passed (List.forall_mem_nil _)
  | cons option rest ih =>
    have hcollect : collect given (option :: rest) =
        (optionTokens given option).bind fun ts => (collect given rest).map (ts ++ ·) := by
      rw [collect]
      cases optionTokens given option <;> rfl
    rw [hcollect]
    exact (decided_optionTokens given option).append ih (· ++ ·)

/-- A launch is decided by its checks. -/
theorem decided_compose (clientId : UInt32) (app : String) (eal options : Table String Json) :
    DecidedBy (checks app eal options)
      ⟨clientId, app, ealOptions.flatMap (written eal), (appOptions app).flatMap (written options)⟩
      (compose clientId app eal options) := by
  have hsections := (decided_collect eal ealOptions).append (decided_collect options (appOptions app))
    (Launch.mk clientId app)
  have hcompose : compose clientId app eal options =
      if !isToken app then .error (.keyInvalid "proc_name" app)
      else if !lcoreOptions.any (Table.has · eal) then
        .error (.keyRequired "-c|-l|--lcores")
      else if !Table.has procTypeOption eal then .error (.keyRequired procTypeOption)
      else (collect eal ealOptions).bind fun ts =>
        (collect options (appOptions app)).map (Launch.mk clientId app ts) := by
    rw [compose]
    rcases collect eal ealOptions with e | ts <;> rfl
  rw [hcompose, checks]
  refine .guarded Iff.rfl (.guarded ?_ (.guarded Iff.rfl hsections))
  simp [lcoreOptions]

/-- Options that are not listed are not looked at. -/
theorem collect_congr
    (h : ∀ option ∈ listed, Table.find? option given = Table.find? option given') :
    collect given listed = collect given' listed := by
  induction listed with
  | nil => rfl
  | cons option rest ih =>
    obtain ⟨hoption, hrest⟩ := List.forall_mem_cons.1 h
    rw [collect, collect, optionTokens, optionTokens, hoption, ih hrest]

/-- So only the listed options count. -/
theorem compose_congr {clientId : UInt32} {app : String}
    {eal eal' options options' : Table String Json}
    (heal : ∀ option ∈ ealOptions, Table.find? option eal = Table.find? option eal')
    (hoptions : ∀ option ∈ appOptions app,
      Table.find? option options = Table.find? option options') :
    compose clientId app eal options = compose clientId app eal' options' := by
  have hhas : ∀ option ∈ ealOptions, Table.has option eal = Table.has option eal' :=
    fun option ho => congrArg Option.isSome (heal option ho)
  have hlcores : lcoreOptions.any (Table.has · eal) = lcoreOptions.any (Table.has · eal') := by
    simp only [lcoreOptions, List.any_cons, hhas "-c" (by decide), hhas "-l" (by decide),
      hhas "--lcores" (by decide)]
    rfl
  rw [compose, compose, hlcores, hhas procTypeOption (by decide), collect_congr heal,
    collect_congr hoptions]

theorem nodup_appOptions (app : String) : (appOptions app).Nodup := by
  unfold appOptions
  split
  · decide
  · split
    · decide
    · split <;> decide

/-- A launch is composed if everything that is checked is in order: the name is a token, one of the
lcore options and the process type are given, and every listed option that is given has no value or
one token. Then each section holds the listed options that are given, in the order of the list, each
once and followed by its value. Otherwise the failure is that of the first check that does not hold.
Options that are not listed make no difference to either. -/
theorem composed_iff_checked (clientId : UInt32) (app : String) (eal options : Table String Json) :
    (∀ l, compose clientId app eal options = .ok l ↔
      (∀ check ∈ checks app eal options, check.holds) ∧
        l = ⟨clientId, app, ealOptions.flatMap (written eal),
          (appOptions app).flatMap (written options)⟩) ∧
    (∀ e, compose clientId app eal options = .error e ↔ FirstFault (checks app eal options) e) ∧
    (ealOptions.Nodup ∧ (appOptions app).Nodup) ∧
    ∀ eal' options', (∀ option ∈ ealOptions, Table.find? option eal = Table.find? option eal') →
      (∀ option ∈ appOptions app, Table.find? option options = Table.find? option options') →
        compose clientId app eal options = compose clientId app eal' options' := by
  have hdecided := decided_compose clientId app eal options
  refine ⟨fun l => hdecided.eq_ok_iff, fun e => hdecided.eq_error_iff,
    ⟨by decide, nodup_appOptions app⟩, ?_⟩
  intro eal' options' heal hoptions
  exact compose_congr heal hoptions

/-- An option that is not listed is left out, and its value, which would be three tokens, is not
looked at. -/
theorem composed_iff_checked_with_unlisted :
    compose 2 "spp_nfv" (("--bogus", .string "1 -- 2") :: cores) [("-n", .null)] =
      .ok ⟨2, "spp_nfv", ["-l", "1,2", "--proc-type", "secondary"], ["-n"]⟩ := by
  have hlisted : ∀ option ∈ ealOptions, option ≠ "--bogus" := by decide
  have hwithout : compose 2 "spp_nfv" cores [("-n", .null)] =
      .ok ⟨2, "spp_nfv", ["-l", "1,2", "--proc-type", "secondary"], ["-n"]⟩ :=
    Except.eq_ok_of_toOption (by decide +kernel)
  rw [← hwithout]
  exact (composed_iff_checked 2 "spp_nfv" (("--bogus", .string "1 -- 2") :: cores)
    [("-n", .null)]).2.2.2 cores [("-n", .null)] (fun option ho => if_neg (hlisted option ho))
    fun _ _ => rfl

end Launch

end WorkerBroker
