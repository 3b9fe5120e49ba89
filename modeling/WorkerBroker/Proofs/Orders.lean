import WorkerBroker.Http.Order
/-!
# What the body of a request comes to

A body is read key by key, and either it comes to a command or the request is refused. `Reads` says
both at once of anything that is read, so that the readers are gone through only once: what has been
read has some property, and what goes wrong is the fault of the request, never of a worker or of the
broker.

`Order.Yields` lists which commands an order can come to, `Order.reads_command` says that it comes to
nothing else, and `Order.Yields.supported` that workers of the kind that the order is for understand
all of them.
-/

namespace WorkerBroker

/-! ## Reading -/

section

variable {α β : Type} {P : α → Prop} {Q : β → Prop}

/-- What is read has this property; otherwise the request is to blame. -/
def Reads (P : α → Prop) : Except Failure α → Prop
  | .ok x => P x
  | .error e => e.status = 400

/-- What is read was read. -/
theorem Reads.eq {x : Except Failure α} (h : Reads P x) : Reads (fun a => x = .ok a ∧ P a) x := by
  cases x with
  | ok a => exact ⟨rfl, h⟩
  | error e => exact h

theorem Reads.mono {P' : α → Prop} {x : Except Failure α} (h : Reads P x) (hp : ∀ a, P a → P' a) :
    Reads P' x := by
  cases x with
  | ok a => exact hp a h
  | error e => exact h

theorem Reads.bind {x : Except Failure α} {f : α → Except Failure β} (h : Reads P x)
    (hf : ∀ a, P a → Reads Q (f a)) : Reads Q (x >>= f) := by
  cases x with
  | ok a => exact hf a h
  | error e => exact h

theorem Reads.map {x : Except Failure α} {f : α → β} (h : Reads P x) (hf : ∀ a, P a → Q (f a)) :
    Reads Q (x.map f) := by
  cases x with
  | ok a => exact hf a h
  | error e => exact h

/-- What is computed as a value is that value. -/
theorem Except.eq_ok_of_toOption {ε : Type} : ∀ {x : Except ε α} {a : α},
    x.toOption = some a → x = .ok a
  | .ok _, _, rfl => rfl

end

namespace Body

variable {body : Json} {key : String}

/-- Whatever is wrong with a body, the request is refused. -/
theorem reads_parse (bytes : Bytes) : Reads (fun _ => True) (parse bytes) := by
  unfold parse
  cases Json.read bytes with
  | ok v => trivial
  | error h => rfl

theorem reads_requireAll (body : Json) (keys : List String) :
    Reads (fun _ => True) (requireAll body keys) := by
  induction keys with
  | nil => trivial
  | cons key keys ih =>
    rw [requireAll]
    split
    · exact ih
    · rfl

theorem reads_requireAs {α : Type} (narrow : Json → Option α) :
    Reads (fun _ => True) (requireAs body key narrow) := by
  simp only [requireAs, require]
  rcases body.member? key with _ | v
  · rfl
  · rcases h : narrow v with _ | a <;> simp only [h] <;> trivial

theorem reads_checkName (key name : String) :
    Reads (fun s => s = name ∧ isToken name) (checkName key name) := by
  unfold checkName
  split
  · exact ⟨rfl, ‹_›⟩
  · rfl

theorem reads_name : Reads (fun s => text body key = .ok s ∧ isToken s) (name body key) := by
  refine Reads.bind (reads_requireAs Json.asString?).eq fun s hs => ?_
  refine (reads_checkName key s).mono ?_
  rintro _ ⟨rfl, ht⟩
  exact ⟨hs.1, ht⟩

theorem reads_choice (choices : List String) :
    Reads (fun _ => True) (choice body key choices) := by
  refine Reads.bind (reads_requireAs Json.asString?) fun s _ => ?_
  split
  · trivial
  · rfl

theorem reads_port : Reads (fun _ => True) (port body key) := by
  refine Reads.bind (reads_requireAs Json.asString?) fun s _ => ?_
  unfold Port.read
  split
  · trivial
  · rfl

theorem reads_mac : Reads (fun m => text body key = .ok m.text) (mac body key) := by
  refine Reads.bind (reads_requireAs Json.asString?).eq fun s hs => ?_
  rw [MacAddress.read, MacAddress.ofText?]
  split
  · rename_i m hm
    split at hm <;> cases hm
    exact hs.1
  · rfl

theorem reads_vlanId : Reads (fun _ => True) (vlanId body key) := by
  unfold vlanId
  split
  · rfl
  · split
    · trivial
    · rfl

theorem reads_vlanTag : Reads (fun _ => True) (vlanTag body) := by
  unfold vlanTag
  split
  · trivial
  · split
    · trivial
    · split
      · trivial
      · rfl

end Body

theorem Direction.reads_read (s : String) : Reads (fun _ => True) (Direction.read s) := by
  unfold Direction.read
  split
  · trivial
  · rfl

/-! ## Launches -/

namespace Launch

/-- The values of the listed options that are given one. -/
def values (given : Table String Json) (listed : List String) : List String :=
  listed.filterMap fun option => (Table.find? option given).bind optionValue

/-- Options as they are written: all tokens, the values that are given among them and in their order,
and something at all if one of the options is given. -/
structure Lists (given : Table String Json) (listed written : List String) : Prop where
  tokens : ∀ s ∈ written, isToken s
  values : (values given listed).Sublist written
  some_of_given : (∃ option ∈ listed, Table.has option given) → written ≠ []

theorem lists_optionTokens {option : String} (h : isToken option) (given : Table String Json) :
    Reads (Lists given [option]) (optionTokens given option) := by
  simp only [optionTokens]
  rcases hf : Table.find? option given with _ | v
  · refine ⟨List.forall_mem_nil _, by simp [values, hf], ?_⟩
    rintro ⟨o, ho, hg⟩
    rw [List.mem_singleton.1 ho, Table.has, hf] at hg
    cases hg
  · rcases hv : optionValue v with _ | s
    · simp only [hv]
      exact ⟨by simpa using h, by simp [values, hf, hv], fun _ => List.cons_ne_nil _ _⟩
    · simp only [hv]
      split
      · rename_i hs
        refine ⟨?_, ?_, fun _ => List.cons_ne_nil _ _⟩
        · simp [h, hs]
        · simp [values, hf, hv]
      · rfl

theorem lists_collect {listed : List String} (h : ∀ option ∈ listed, isToken option)
    (given : Table String Json) : Reads (Lists given listed) (collect given listed) := by
  induction listed with
  | nil =>
    refine ⟨List.forall_mem_nil _, List.Sublist.refl _, ?_⟩
    rintro ⟨o, ho, -⟩
    cases ho
  | cons option rest ih =>
    have hfirst := lists_optionTokens (h option List.mem_cons_self) given
    have hrest := ih fun o ho => h o (List.mem_cons_of_mem _ ho)
    rw [collect]
    -- the first option is written or refused, and the others follow
    rcases hts : optionTokens given option with e | ts <;> rw [hts] at hfirst
    · exact hfirst
    · refine hrest.map fun us hus => ⟨fun s hs => ?_, ?_, ?_⟩
      · rcases List.mem_append.1 hs with hs | hs
        · exact hfirst.tokens s hs
        · exact hus.tokens s hs
      · have hvalues : values given (option :: rest) = values given [option] ++ values given rest :=
          @List.filterMap_append _ _ [option] rest _
        rw [hvalues]
        exact hfirst.values.append hus.values
      · rintro ⟨o, ho, hg⟩ hnil
        obtain ⟨hts', hus'⟩ := List.append_eq_nil_iff.1 hnil
        rcases List.mem_cons.1 ho with rfl | ho
        · exact hfirst.some_of_given ⟨o, List.mem_singleton_self o, hg⟩ hts'
        · exact hus.some_of_given ⟨o, ho, hg⟩ hus'

theorem isToken_of_mem_ealOptions : ∀ option ∈ ealOptions, isToken option := by
  decide

theorem isToken_of_mem_appOptions (app : String) : ∀ option ∈ appOptions app, isToken option := by
  unfold appOptions
  split
  · decide
  · split
    · decide
    · split
      · decide
      · nofun

/-- A launch of an application with options that were given. -/
structure IsOf (name : String) (eal options : Table String Json) (l : Launch) : Prop where
  app : l.app = name
  isName : isToken name
  eal : Lists eal ealOptions l.eal
  options : Lists options (appOptions name) l.options
  ealGiven : l.eal ≠ []

theorem isOf_compose (id : UInt32) (app : String) (eal options : Table String Json) :
    Reads (IsOf app eal options) (compose id app eal options) := by
  have heal := lists_collect isToken_of_mem_ealOptions eal
  have hoptions := lists_collect (isToken_of_mem_appOptions app) options
  unfold compose
  split
  · rfl
  · rename_i hname
    split
    · rfl
    · rename_i hlcores
      split
      · rfl
      · rcases hc : collect eal ealOptions with e | written
        · rwa [hc] at heal
        · rw [hc] at heal
          refine hoptions.map fun us hus => ⟨rfl, by simpa using hname, heal, hus, ?_⟩
          -- one of the options for cores is there, so something is written for the environment layer
          have hlisted : ∀ o ∈ lcoreOptions, o ∈ ealOptions := by decide
          obtain ⟨o, ho, hg⟩ := List.any_eq_true.1 (by simpa using hlcores)
          exact heal.some_of_given ⟨o, hlisted o ho, hg⟩

end Launch

/-! ## Orders -/

/-- Whether workers of some kind understand what an order comes to. -/
def Order.Suits (kind : WorkerKind) : Order → Prop
  | .forward | .port | .patch => kind = .primary ∨ kind = .nfv
  | .launch => kind = .primary
  | .capture => kind = .pcap
  | .startComponent | .componentPort _ => kind = .vf ∨ kind = .mirror
  | .classifierTable => kind = .vf

/-- What an order comes to for a worker of some kind. -/
inductive Order.Yields (kind : WorkerKind) (body : Json) : Order → Command → Prop where
  | forward : Yields kind body .forward .forward
  | stopForward : Yields kind body .forward .stop
  | capture : Yields kind body .capture .start
  | stopCapture : Yields kind body .capture .stop
  | addPort (port : Port) : Yields kind body .port (.addPort port)
  | delPort (port : Port) : Yields kind body .port (.delPort port)
  | patch (src dst : Port) : Yields kind body .patch (.patch src dst)
  | launch {app : String} {eal options : Table String Json} {l : Launch}
      (happ : Body.text body "proc_name" = .ok app) (heal : Body.object body "eal" = .ok eal)
      (hoptions : Body.object body "app" = .ok options) (hl : l.IsOf app eal options) :
      Yields kind body .launch (.launch l)
  | startComponent {name : String} {core : UInt32} {component : ComponentKind}
      (hname : Body.text body "name" = .ok name) (ht : isToken name)
      (hkind : component ∈ ComponentKind.allowedFor kind) :
      Yields kind body .startComponent (.startComponent name core component)
  | attachPort {name : String} {port : Port} {direction : Direction} {tag : VlanTag}
      (hname : isToken name) (htag : tag = .keep ∨ kind = .vf) :
      Yields kind body (.componentPort name) (.attachPort port direction name tag)
  | detachPort {name : String} {port : Port} {direction : Direction} (hname : isToken name) :
      Yields kind body (.componentPort name) (.detachPort port direction name)
  | classifierTable {action : TableAction} {vlan : Option UInt16} {mac : MacAddress} {port : Port}
      (hmac : Body.text body "mac_address" = .ok mac.text) :
      Yields kind body .classifierTable (.classifierTable action ⟨vlan, mac, port⟩)

namespace Order

variable {kind : WorkerKind} {body : Json}

theorem reads_commandOf {o : Order} (hpath : ∀ name, o = .componentPort name → isToken name) :
    Reads (o.Yields kind body) (o.commandOf kind body) := by
  cases o with
  | forward =>
    refine Reads.bind (Body.reads_choice _) fun action _ => ?_
    split
    · exact .forward
    · exact .stopForward
  | capture =>
    refine Reads.bind (Body.reads_choice _) fun action _ => ?_
    split
    · exact .capture
    · exact .stopCapture
  | port =>
    refine Reads.bind (Body.reads_choice _) fun action _ => ?_
    refine Reads.bind Body.reads_port fun port _ => ?_
    split
    · exact .addPort port
    · exact .delPort port
  | patch =>
    refine Reads.bind Body.reads_port fun src _ => ?_
    refine Reads.bind Body.reads_port fun dst _ => ?_
    exact .patch src dst
  | launch =>
    refine Reads.bind (Body.reads_requireAs _) fun id _ => ?_
    refine Reads.bind Body.reads_name fun app happ => ?_
    refine Reads.bind (Body.reads_requireAs _).eq fun eal heal => ?_
    refine Reads.bind (Body.reads_requireAs _).eq fun options hoptions => ?_
    refine Reads.bind (Launch.isOf_compose id app eal options) fun l hl => ?_
    exact .launch happ.1 heal.1 hoptions.1 hl
  | startComponent =>
    refine Reads.bind Body.reads_name fun name hname => ?_
    refine Reads.bind (Body.reads_requireAs _) fun core _ => ?_
    refine Reads.bind (Body.reads_requireAs _) fun type _ => ?_
    split
    · rename_i component hcomponent
      exact .startComponent hname.1 hname.2 (List.mem_of_find?_eq_some hcomponent)
    · rfl
  | componentPort name =>
    have hname := hpath name rfl
    refine Reads.bind (Body.reads_choice _) fun action _ => ?_
    refine Reads.bind (Body.reads_choice _) fun dir _ => ?_
    refine Reads.bind (Direction.reads_read dir) fun direction _ => ?_
    refine Reads.bind Body.reads_port fun port _ => ?_
    split
    · split
      · exact Reads.bind Body.reads_vlanTag fun tag _ => .attachPort hname (.inr ‹_›)
      · exact .attachPort hname (.inl rfl)
    · exact .detachPort hname
  | classifierTable =>
    refine Reads.bind (Body.reads_choice _) fun action _ => ?_
    refine Reads.bind (Body.reads_choice _) fun type _ => ?_
    refine Reads.bind Body.reads_port fun port _ => ?_
    refine Reads.bind Body.reads_mac fun mac hmac => ?_
    dsimp only
    split
    · exact .classifierTable hmac
    · refine Reads.bind (Body.reads_vlanId.map (Q := fun _ => True) fun _ _ => trivial) ?_
      exact fun vlan _ => .classifierTable hmac

theorem reads_checkPath (o : Order) :
    Reads (fun _ => ∀ name, o = .componentPort name → isToken name) o.checkPath := by
  cases o with
  | componentPort name =>
    refine (Body.reads_checkName "name" name).map ?_
    rintro _ ⟨rfl, ht⟩ name ⟨⟩
    exact ht
  | _ => exact nofun

/-- An order comes to one of these commands, or the request is refused. -/
theorem reads_command (o : Order) : Reads (o.Yields kind body) (o.command kind body) :=
  Reads.bind o.reads_checkPath fun _ hpath =>
    Reads.bind (Body.reads_requireAll body o.requiredKeys) fun _ _ => reads_commandOf hpath

/-- Workers understand what the orders come to that suit their kind. -/
theorem Yields.supported {o : Order} {c : Command} (h : o.Yields kind body c) (hs : o.Suits kind) :
    c.supportedBy kind := by
  cases h with
  | stopForward => exact decide_eq_true (hs.imp id .inl)
  | stopCapture => exact decide_eq_true (.inr (.inr hs))
  | startComponent _ _ hkind => exact decide_eq_true hkind
  | @attachPort _ _ _ tag _ htag =>
    cases tag with
    | keep => exact decide_eq_true hs
    | _ => exact decide_eq_true (htag.resolve_left nofun)
  | _ => exact decide_eq_true hs

end Order

end WorkerBroker
