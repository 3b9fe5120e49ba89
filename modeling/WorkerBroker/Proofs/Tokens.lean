import WorkerBroker.Proofs.Requests
/-!
# Tokens of command lines

A worker cuts the line of a command at its spaces. What it gets are the tokens of the command
(`Command.tokens`), as long as each of them is one: not empty, and without blanks or control
characters (`Command.IsClean`, `Command.IsClean.renders`). The one exception is a launch without options
of the application, whose line ends in a space.

Whatever a request asks for is clean, and each text that the request supplies and that goes into the
line is one of the tokens (`Request.Asks.isClean`, `Request.Asks.supplied`).
-/

namespace WorkerBroker

/-! ## Tokens -/

theorem isTokenChar_of_isDigit {c : Char} (h : c.isDigit) : isTokenChar c := by
  simp only [Char.isDigit, Bool.and_eq_true, decide_eq_true_eq] at h
  have hlow : 48 ≤ c.toNat := h.1
  have hhigh : c.toNat ≤ 57 := h.2
  simp [isTokenChar, isBlank, isControl]
  omega

theorem isToken_decimal (n : Nat) : isToken (decimal n) := by
  rw [isToken_iff, toList_decimal]
  exact ⟨Nat.toDigits_ne_nil, fun c hc =>
    isTokenChar_of_isDigit (Nat.isDigit_of_mem_toDigits (by omega) (by omega) hc)⟩

/-- One token after the other is one. -/
theorem isToken_append {s t : String} (hs : isToken s) (ht : isToken t) : isToken (s ++ t) := by
  rw [isToken_iff] at hs ht ⊢
  rw [String.toList_append]
  refine ⟨fun h => hs.1 (List.append_eq_nil_iff.1 h).1, fun c hc => ?_⟩
  rcases List.mem_append.1 hc with hc | hc
  · exact hs.2 c hc
  · exact ht.2 c hc

theorem Port.isToken_text (p : Port) : isToken p.text := by
  refine isToken_append (isToken_append ?_ (by decide)) (isToken_decimal _)
  cases p.type <;> decide

theorem isTokenChar_of_isHexDigit {c : Char} (h : isHexDigit c) : isTokenChar c := by
  simp only [isHexDigit, Bool.or_eq_true, Bool.and_eq_true, decide_eq_true_eq] at h
  have hrange : 48 ≤ c.toNat ∧ c.toNat ≤ 102 := by
    rcases h with (⟨h₁, h₂⟩ | ⟨h₁, h₂⟩) | ⟨h₁, h₂⟩
    · exact ⟨h₁, Nat.le_trans (show c.toNat ≤ 57 from h₂) (by decide)⟩
    · exact ⟨Nat.le_trans (by decide) (show 97 ≤ c.toNat from h₁), h₂⟩
    · exact ⟨Nat.le_trans (by decide) (show 65 ≤ c.toNat from h₁),
        Nat.le_trans (show c.toNat ≤ 70 from h₂) (by decide)⟩
  simp [isTokenChar, isBlank, isControl]
  omega

/-- Pairs of digits are not empty, and of token characters only. -/
theorem isToken_of_isHexPairs {separator : Char} (hs : isTokenChar separator) {n : Nat}
    {cs : List Char} (h : isHexPairs separator n cs) : cs ≠ [] ∧ ∀ c ∈ cs, isTokenChar c := by
  fun_induction isHexPairs separator n cs with
  | case1 a b =>
    rw [Bool.and_eq_true] at h
    refine ⟨List.cons_ne_nil _ _, fun c hc => ?_⟩
    simp only [List.mem_cons, List.not_mem_nil, or_false] at hc
    rcases hc with rfl | rfl
    · exact isTokenChar_of_isHexDigit h.1
    · exact isTokenChar_of_isHexDigit h.2
  | case2 n a b s rest ih =>
    simp only [Bool.and_eq_true, beq_iff_eq] at h
    obtain ⟨⟨⟨ha, hb⟩, rfl⟩, hrest⟩ := h
    refine ⟨List.cons_ne_nil _ _, fun c hc => ?_⟩
    simp only [List.mem_cons] at hc
    rcases hc with rfl | rfl | rfl | hc
    · exact isTokenChar_of_isHexDigit ha
    · exact isTokenChar_of_isHexDigit hb
    · exact hs
    · exact (ih hrest).2 c hc
  | case3 => cases h

theorem MacAddress.isToken_text (m : MacAddress) : isToken m.text := by
  have h := m.isMac
  simp only [isMacText, Bool.or_eq_true, beq_iff_eq] at h
  rcases h with (h | h) | h
  · rw [h]
    decide
  · exact isToken_iff.2 (isToken_of_isHexPairs (by decide) h)
  · exact isToken_iff.2 (isToken_of_isHexPairs (by decide) h)

/-! ## Lines -/

namespace Command

/-- The tokens of a command. -/
def tokens : Command → List String
  | launch l => ["launch", decimal l.clientId.toNat, l.app] ++ l.eal ++ ["--"] ++ l.options
  | c => c.fields

/-- A launch without options of the application. -/
def isBareLaunch : Command → Bool
  | launch l => l.options.isEmpty
  | _ => false

/-- All tokens of a command are tokens, and a launch has options of the environment layer. -/
structure IsClean (c : Command) : Prop where
  tokens : ∀ t ∈ c.tokens, isToken t
  eal : ∀ l, c = launch l → l.eal ≠ []

/-- A line is that of a command: only spaces and token characters stand in it, and cut at its spaces
it is the tokens of the command, each of them one token; but at the end of a bare launch there is one
space more. -/
structure Renders (c : Command) (line : String) : Prop where
  chars : ∀ ch ∈ line.toList, ch = ' ' ∨ isTokenChar ch
  words : ∃ text, line.toList = text ++ (if c.isBareLaunch then [' '] else []) ∧
    (text.splitOn ' ').map String.ofList = c.tokens
  tokens : ∀ t ∈ c.tokens, isToken t

section

variable {tokens : List String}

/-- Tokens with spaces between them are cut apart again. -/
theorem splitOn_intercalate_tokens (h : ∀ t ∈ tokens, isToken t) (hne : tokens ≠ []) :
    (([' '].intercalate (tokens.map String.toList)).splitOn ' ').map String.ofList = tokens := by
  -- no token has a space in it, so the spaces of the line are those between tokens
  rw [List.splitOn_intercalate]
  · rw [List.map_map]
    exact (List.map_congr_left fun t _ => String.ofList_toList).trans (List.map_id tokens)
  · intro cs hcs hspace
    obtain ⟨t, ht, rfl⟩ := List.mem_map.1 hcs
    have hchar := (isToken_iff.1 (h t ht)).2 ' ' hspace
    rw [isTokenChar_space] at hchar
    cases hchar
  · simpa using hne

/-- Between tokens there are only spaces. -/
theorem mem_intercalate_tokens (h : ∀ t ∈ tokens, isToken t) :
    ∀ ch ∈ [' '].intercalate (tokens.map String.toList), ch = ' ' ∨ isTokenChar ch := by
  induction tokens with
  | nil => exact nofun
  | cons t ts ih =>
    have hfirst : ∀ ch ∈ t.toList, isTokenChar ch := (isToken_iff.1 (h t List.mem_cons_self)).2
    have hrest := ih fun u hu => h u (List.mem_cons_of_mem _ hu)
    intro ch hch
    rcases ts with _ | ⟨u, us⟩
    · rw [List.map_singleton, List.intercalate_singleton] at hch
      exact .inr (hfirst ch hch)
    · rw [List.map_cons, List.map_cons, List.intercalate_cons_cons, List.append_assoc,
        List.mem_append, List.mem_append] at hch
      rcases hch with hch | hch | hch
      · exact .inr (hfirst ch hch)
      · exact .inl (List.mem_singleton.1 hch)
      · exact hrest ch hch

/-- An empty field at the end comes to a space. -/
theorem intercalate_concat_nil {pieces : List (List Char)} (hne : pieces ≠ []) :
    [' '].intercalate (pieces ++ [[]]) = [' '].intercalate pieces ++ [' '] := by
  induction pieces with
  | nil => exact absurd rfl hne
  | cons piece pieces ih =>
    rcases pieces with _ | ⟨piece', pieces⟩
    · simp [List.intercalate_cons_cons]
    · rw [List.cons_append, List.cons_append, List.intercalate_cons_cons,
        List.intercalate_cons_cons, ← List.cons_append, ih (List.cons_ne_nil _ _)]
      simp only [List.append_assoc]

end

variable {c : Command}

theorem tokens_ne_nil (c : Command) : c.tokens ≠ [] := by
  cases c <;> simp [tokens, fields]

theorem orEmptyField_of_ne_nil {fields : List String} (h : fields ≠ []) :
    orEmptyField fields = fields := by
  unfold orEmptyField
  split
  · exact absurd rfl h
  · rfl

/-- The line of a command is its tokens with spaces between them. -/
theorem toList_line (hc : c.IsClean) :
    c.line.toList =
      [' '].intercalate (c.tokens.map String.toList) ++ if c.isBareLaunch then [' '] else [] := by
  rw [line, String.toList_intercalate]
  cases c with
  | launch l =>
    have heal := orEmptyField_of_ne_nil (hc.eal l rfl)
    by_cases ho : l.options = []
    -- without options the last field is empty, and that comes to the space at the end
    · have hfields : (launch l).fields = (launch l).tokens ++ [""] := by
        rw [fields, tokens, heal, ho, List.append_nil]
        rfl
      rw [hfields, List.map_append]
      refine (intercalate_concat_nil ?_).trans ?_
      · simpa using tokens_ne_nil (launch l)
      · simp [isBareLaunch, ho]
    · have hfields : (launch l).fields = (launch l).tokens := by
        rw [fields, tokens, heal, orEmptyField_of_ne_nil ho]
      rw [hfields]
      simp [isBareLaunch, ho]
  | _ => exact (List.append_nil _).symm

/-- The line of a command whose tokens are tokens cannot be taken for another. -/
theorem IsClean.renders (hc : c.IsClean) : c.Renders c.line where
  chars := by
    intro ch hch
    rw [toList_line hc, List.mem_append] at hch
    rcases hch with hch | hch
    · exact mem_intercalate_tokens hc.tokens ch hch
    · split at hch
      · exact .inl (List.mem_singleton.1 hch)
      · cases hch
  words := ⟨_, toList_line hc, splitOn_intercalate_tokens hc.tokens c.tokens_ne_nil⟩
  tokens := hc.tokens

end Command

/-! ## Free texts -/

theorem ComponentKind.isToken_name (kind : ComponentKind) : isToken kind.name := by
  cases kind <;> decide

theorem Direction.isToken_name (direction : Direction) : isToken direction.name := by
  cases direction <;> decide

theorem TableAction.isToken_name (action : TableAction) : isToken action.name := by
  cases action <;> decide

theorem isToken_of_mem_tagFields (tag : VlanTag) : ∀ t ∈ Command.tagFields tag, isToken t := by
  cases tag with
  | keep => exact nofun
  | add id priority =>
    simp only [Command.tagFields, List.forall_mem_cons]
    exact ⟨by decide, isToken_decimal _, isToken_decimal _, nofun⟩
  | remove => decide

theorem isToken_of_mem_entryFields (e : TableEntry) :
    ∀ t ∈ Command.entryFields e, isToken t := by
  unfold Command.entryFields
  split
  · simp only [List.forall_mem_cons]
    exact ⟨by decide, e.mac.isToken_text, e.port.isToken_text, nofun⟩
  · simp only [List.forall_mem_cons]
    exact ⟨by decide, isToken_decimal _, e.mac.isToken_text, e.port.isToken_text, nofun⟩

namespace Command

/-- The texts that a command holds as they were given: the names of components and applications, and
the options of a launch. -/
def texts : Command → List String
  | startComponent name _ _ | stopComponent name => [name]
  | attachPort _ _ component _ | detachPort _ _ component => [component]
  | launch l => l.app :: l.eal ++ l.options
  | _ => []

variable {c : Command}

/-- The tokens of a command are tokens if its free texts are. -/
theorem isToken_of_texts (h : ∀ t ∈ c.texts, isToken t) : ∀ t ∈ c.tokens, isToken t := by
  cases c with
  | identify | status | clear | resetPatches | forward | stop | start | exit => decide
  | addPort port | delPort port =>
    simp only [tokens, fields, List.forall_mem_cons]
    exact ⟨by decide, port.isToken_text, nofun⟩
  | patch src dst =>
    simp only [tokens, fields, List.forall_mem_cons]
    exact ⟨by decide, src.isToken_text, dst.isToken_text, nofun⟩
  | launch l =>
    simp only [texts, List.cons_append, List.forall_mem_cons, List.forall_mem_append] at h
    simp only [tokens, List.cons_append, List.nil_append, List.append_assoc, List.forall_mem_cons,
      List.forall_mem_append]
    exact ⟨by decide, isToken_decimal _, h.1, h.2.1, by decide, h.2.2⟩
  | startComponent name core kind =>
    simp only [tokens, fields, List.forall_mem_cons]
    exact ⟨by decide, by decide, h name List.mem_cons_self, isToken_decimal _, kind.isToken_name,
      nofun⟩
  | stopComponent name =>
    simp only [tokens, fields, List.forall_mem_cons]
    exact ⟨by decide, by decide, h name List.mem_cons_self, nofun⟩
  | attachPort port direction component tag =>
    simp only [tokens, fields, List.forall_mem_append, List.forall_mem_cons]
    exact ⟨⟨by decide, by decide, port.isToken_text, direction.isToken_name,
      h component List.mem_cons_self, nofun⟩, isToken_of_mem_tagFields tag⟩
  | detachPort port direction component =>
    simp only [tokens, fields, List.forall_mem_cons]
    exact ⟨by decide, by decide, port.isToken_text, direction.isToken_name,
      h component List.mem_cons_self, nofun⟩
  | classifierTable action entry =>
    simp only [tokens, fields, List.forall_mem_append, List.forall_mem_cons]
    exact ⟨⟨by decide, action.isToken_name, nofun⟩, isToken_of_mem_entryFields entry⟩

/-- A command whose free texts are tokens is clean, unless it is a launch. -/
theorem isClean_of_texts (hl : ∀ l, c ≠ launch l) (h : ∀ t ∈ c.texts, isToken t) : c.IsClean :=
  ⟨isToken_of_texts h, fun l hc => absurd hc (hl l)⟩

end Command

/-! ## What requests ask for -/

/-- What a launch of an application with options comes to is clean. -/
theorem Launch.IsOf.isClean {name : String} {eal options : Table String Json} {l : Launch}
    (h : l.IsOf name eal options) : (Command.launch l).IsClean := by
  have happ : isToken l.app := h.app ▸ h.isName
  refine ⟨Command.isToken_of_texts ?_, ?_⟩
  · simp only [Command.texts, List.cons_append, List.forall_mem_cons, List.forall_mem_append]
    exact ⟨happ, h.eal.tokens, h.options.tokens⟩
  · rintro l' ⟨⟩
    exact h.ealGiven

/-- What an order comes to is clean. -/
theorem Order.Yields.isClean {kind : WorkerKind} {body : Json} {o : Order} {c : Command}
    (h : o.Yields kind body c) : c.IsClean := by
  cases h with
  | launch _ _ _ hl => exact hl.isClean
  | forward | stopForward | capture | stopCapture | addPort | delPort | patch | classifierTable =>
    exact Command.isClean_of_texts nofun nofun
  | startComponent _ ht _ => exact Command.isClean_of_texts nofun (List.forall_mem_singleton.2 ht)
  | attachPort hname _ => exact Command.isClean_of_texts nofun (List.forall_mem_singleton.2 hname)
  | detachPort hname => exact Command.isClean_of_texts nofun (List.forall_mem_singleton.2 hname)

namespace Request

variable {request : Request} {kind : WorkerKind} {c : Command}

/-- What a request asks for is clean. -/
theorem Asks.isClean (h : request.Asks kind c) : c.IsClean := by
  obtain ⟨address, action, -, h⟩ := h
  cases action with
  | display | exit | clear | resetPatches =>
    obtain rfl := h
    exact Command.isClean_of_texts nofun nofun
  | stopComponent name =>
    obtain ⟨ht, rfl⟩ := h
    exact Command.isClean_of_texts nofun (List.forall_mem_singleton.2 ht)
  | order o =>
    obtain ⟨value, -, hy⟩ := h
    exact hy.isClean

end Request

/-! ### What requests supply -/

namespace Body

/-- The text under a key, if there is one. -/
def texts (body : Json) (key : String) : List String :=
  (text body key).toOption.toList

/-- The values of the listed options in the object under a key. -/
def optionValues (body : Json) (key : String) (listed : List String) : List String :=
  (object body key).toOption.toList.flatMap fun given => Launch.values given listed

end Body

/-- The texts of a path and a body that go into the line of what an order comes to: the names of
components and applications, the values of options, and MAC addresses. -/
def Order.supplied (body : Json) : Order → List String
  | launch =>
    let apps := Body.texts body "proc_name"
    apps ++ Body.optionValues body "eal" ealOptions ++
      apps.flatMap fun app => Body.optionValues body "app" (appOptions app)
  | startComponent => Body.texts body "name"
  | componentPort name => [name]
  | classifierTable => Body.texts body "mac_address"
  | forward | port | patch | capture => []

/-- The texts of a request that go into the line of what it comes to. -/
def Request.supplied (request : Request) : List String :=
  match request.errand? with
  | some (.worker _ (.stopComponent name)) => [name]
  | some (.worker _ (.order o)) =>
    (Body.parse request.body).toOption.toList.flatMap fun value => o.supplied value
  | _ => []

/-- The texts that are supplied are tokens of the command, each one of its own. -/
theorem Order.Yields.supplied {kind : WorkerKind} {body : Json} {o : Order} {c : Command}
    (h : o.Yields kind body c) : (o.supplied body).Sublist c.tokens := by
  cases h with
  | forward | stopForward | capture | stopCapture | addPort | delPort | patch =>
    exact List.nil_sublist _
  | @launch app eal options l happ heal hoptions hl =>
    have happs : Body.texts body "proc_name" = [app] := by rw [Body.texts, happ]; rfl
    have hvalues : ∀ {key given listed}, Body.object body key = .ok given →
        Body.optionValues body key listed = Launch.values given listed := by
      intro key given listed hgiven
      rw [Body.optionValues, hgiven]
      exact List.append_nil _
    have happ' : [app].Sublist ["launch", decimal l.clientId.toNat, l.app] := by
      rw [hl.app]
      simp
    have heal' := (happ'.append hl.eal.values).trans (List.sublist_append_left _ ["--"])
    simp only [Order.supplied, happs, hvalues heal, hvalues hoptions, List.flatMap_singleton]
    exact heal'.append hl.options.values
  | @startComponent name core component hname _ _ =>
    have hnames : Body.texts body "name" = [name] := by rw [Body.texts, hname]; rfl
    rw [Order.supplied, hnames, List.singleton_sublist]
    simp [Command.tokens, Command.fields]
  | attachPort _ _ | detachPort _ =>
    rw [Order.supplied, List.singleton_sublist]
    simp [Command.tokens, Command.fields]
  | @classifierTable action vlan mac port hmac =>
    have hmacs : Body.texts body "mac_address" = [mac.text] := by rw [Body.texts, hmac]; rfl
    rw [Order.supplied, hmacs, List.singleton_sublist]
    cases vlan <;> simp [Command.tokens, Command.fields, Command.entryFields]

namespace Request

variable {request : Request} {kind : WorkerKind} {c : Command}

theorem Asks.supplied (h : request.Asks kind c) : request.supplied.Sublist c.tokens := by
  obtain ⟨address, action, he, h⟩ := h
  rw [Request.supplied, he]
  cases action with
  | stopComponent name =>
    obtain ⟨-, rfl⟩ := h
    simp [Command.tokens, Command.fields]
  | order o =>
    obtain ⟨value, hb, hy⟩ := h
    have hbody : (Body.parse request.body).toOption.toList = [value] := by rw [hb]; rfl
    simp only [hbody, List.flatMap_singleton]
    exact hy.supplied
  | _ => exact List.nil_sublist _

/-- A request that is about no worker supplies nothing. -/
theorem supplied_of_not_isForWorker (h : ¬request.IsForWorker) : request.supplied = [] := by
  rw [supplied]
  split
  · exact absurd (suits_of_errand? ‹_›).1 h
  · exact absurd (suits_of_errand? ‹_›).1 h
  · rfl

end Request

end WorkerBroker
