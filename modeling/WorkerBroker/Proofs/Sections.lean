import Mathlib.Data.List.TakeWhile
import WorkerBroker.Proofs.Tokens
/-!
# The two sections of a launch

The line of a launch has the options of the environment layer, a `--`, and the options of the
application. Whoever reads it cuts it into words, leaves out the first three, and takes the first
`--` for the end of the first section (`Launch.sectionsOf`).

No option is called `--`, but nothing keeps a value from being `--`, since it is a token like any
other. In the second section that does no harm. In the first one the value is taken for the end of
the section, so the sections are read as they were meant just when no option of the environment
layer has that value, and then the line determines the launch (`Launch.sections_kept_apart`). If one
has it, another launch may have the same line (`Launch.separator_as_value`).
-/

namespace WorkerBroker

/-- The words of a line: what stands between its spaces, as far as something stands there. -/
def words (line : String) : List String :=
  ((line.toList.splitOn ' ').filter (· ≠ [])).map String.ofList

/-- The words of fields with spaces between them are those of the fields that are not empty. -/
theorem words_intercalate {fields : List String} (h : ∀ t ∈ fields, t = "" ∨ isToken t)
    (hne : fields ≠ []) : words (" ".intercalate fields) = fields.filter (· ≠ "") := by
  -- no field has a space in it, so the line is cut into the fields
  have hpieces : (" ".intercalate fields).toList.splitOn ' ' = fields.map String.toList := by
    rw [String.toList_intercalate]
    refine List.splitOn_intercalate ' ' (fun cs hcs hspace => ?_) (by simpa using hne)
    obtain ⟨t, ht, rfl⟩ := List.mem_map.1 hcs
    rcases h t ht with rfl | htoken
    · cases hspace
    · have hchar := (isToken_iff.1 htoken).2 ' ' hspace
      rw [isTokenChar_space] at hchar
      cases hchar
  have hempty : ∀ t : String, decide (t.toList ≠ []) = decide (t ≠ "") := by simp
  rw [words, hpieces, List.filter_map, List.map_map]
  calc (fields.filter ((fun cs => decide (cs ≠ [])) ∘ String.toList)).map
        (String.ofList ∘ String.toList)
      = (fields.filter (· ≠ "")).map id := by
        congr 1
        · exact funext fun t => String.ofList_toList
        · exact List.filter_congr fun t _ => hempty t
    _ = fields.filter (· ≠ "") := List.map_id _

namespace Command

theorem filter_orEmptyField (ts : List String) :
    (orEmptyField ts).filter (· ≠ "") = ts.filter (· ≠ "") := by
  unfold orEmptyField
  split <;> rfl

variable {c : Command}

/-- The fields of a command that are not empty are its tokens. -/
theorem filter_fields (h : ∀ t ∈ c.tokens, isToken t) : c.fields.filter (· ≠ "") = c.tokens := by
  have hkeep : c.tokens.filter (· ≠ "") = c.tokens :=
    List.filter_eq_self.2 fun t ht => decide_eq_true fun hempty =>
      absurd (h t ht) (by rw [hempty]; decide)
  refine Eq.trans ?_ hkeep
  cases c with
  | launch l => simp only [fields, tokens, List.filter_append, filter_orEmptyField]
  | _ => rfl

theorem eq_empty_or_isToken_of_fields (h : ∀ t ∈ c.tokens, isToken t) {t : String}
    (ht : t ∈ c.fields) : t = "" ∨ isToken t := by
  by_cases hempty : t = ""
  · exact .inl hempty
  · have hmem : t ∈ c.fields.filter (· ≠ "") := List.mem_filter.2 ⟨ht, decide_eq_true hempty⟩
    rw [filter_fields h] at hmem
    exact .inr (h t hmem)

/-- The words of a command's line are its tokens, as long as each of them is one. -/
theorem words_line (h : ∀ t ∈ c.tokens, isToken t) : words c.line = c.tokens := by
  have hne : c.fields ≠ [] := by cases c <;> simp [fields]
  rw [line, words_intercalate (fun t => eq_empty_or_isToken_of_fields h) hne, filter_fields h]

end Command

/-! ## What is before and after a separator -/

section

variable {α : Type} [DecidableEq α] {separator : α} {xs ys : List α}

/-- What stands before the first separator, and what stands after it. -/
def cutAtFirst (separator : α) (xs : List α) : List α × List α :=
  (xs.takeWhile (· ≠ separator), (xs.dropWhile (· ≠ separator)).drop 1)

/-- A list without the separator is all that stands before it. -/
theorem cutAtFirst_append (h : separator ∉ xs) :
    cutAtFirst separator (xs ++ separator :: ys) = (xs, ys) := by
  have hxs : ∀ x ∈ xs, decide (x ≠ separator) := fun x hx =>
    decide_eq_true fun hsep => h (hsep ▸ hx)
  rw [cutAtFirst, List.takeWhile_append_of_pos hxs, List.dropWhile_append_of_pos hxs,
    List.takeWhile_cons_of_neg (by simp), List.dropWhile_cons_of_neg (by simp), List.append_nil]
  rfl

/-- The separator never stands before the first one. -/
theorem not_mem_cutAtFirst : separator ∉ (cutAtFirst separator xs).1 := fun h => by
  simpa using List.mem_takeWhile_imp h

end

/-! ## Sections -/

namespace Launch

/-- What stands between the sections of a launch. -/
def separator : String := "--"

/-- The sections of a line, as they are read. -/
def sectionsOf (line : String) : List String × List String :=
  cutAtFirst separator ((words line).drop 3)

/-- The launch is read with the sections that it has just when the first one does not hold the
separator. -/
theorem sectionsOf_line {l : Launch} (h : (Command.launch l).IsClean) :
    sectionsOf (Command.launch l).line = (l.eal, l.options) ↔ separator ∉ l.eal := by
  have hrest : (words (Command.launch l).line).drop 3 = l.eal ++ separator :: l.options := by
    rw [Command.words_line h.tokens, Command.tokens]
    simp [separator]
  rw [sectionsOf, hrest]
  refine ⟨fun hcut hsep => ?_, cutAtFirst_append⟩
  have hno : separator ∉ (cutAtFirst separator (l.eal ++ separator :: l.options)).1 :=
    not_mem_cutAtFirst
  rw [hcut] at hno
  exact hno hsep

/-- A launch whose first section does not hold the separator is determined by its line. -/
theorem eq_of_line {l l' : Launch} (h : (Command.launch l).IsClean)
    (h' : (Command.launch l').IsClean) (hl : separator ∉ l.eal) (hl' : separator ∉ l'.eal)
    (hline : (Command.launch l).line = (Command.launch l').line) : l = l' := by
  have htokens : (Command.launch l).tokens = (Command.launch l').tokens := by
    rw [← Command.words_line h.tokens, ← Command.words_line h'.tokens, hline]
  have hsections : (l.eal, l.options) = (l'.eal, l'.options) := by
    rw [← (sectionsOf_line h).2 hl, ← (sectionsOf_line h').2 hl', hline]
  obtain ⟨hid, happ⟩ : decimal l.clientId.toNat = decimal l'.clientId.toNat ∧ l.app = l'.app := by
    simp only [Command.tokens, List.cons_append, List.cons.injEq] at htokens
    exact ⟨htokens.2.1, htokens.2.2.1⟩
  have hnat : l.clientId.toNat = l'.clientId.toNat := by
    have hread := congrArg (fun s => readDigits s.toList) hid
    simp only [toList_decimal, readDigits_toDigits] at hread
    exact Option.some.inj hread
  obtain ⟨clientId, app, eal, options⟩ := l
  obtain ⟨clientId', app', eal', options'⟩ := l'
  cases UInt32.toNat.inj hnat
  cases happ
  cases hsections
  rfl

/-! ### The options of a request -/

/-- Whatever is written for options is the name of one of them or a value that one has. -/
theorem mem_of_collect {given : Table String Json} {listed written : List String}
    (h : collect given listed = .ok written) :
    ∀ t ∈ written, t ∈ listed ∨ t ∈ values given listed := by
  induction listed generalizing written with
  | nil =>
    cases h
    exact nofun
  | cons option rest ih =>
    have hvalues : values given (option :: rest) = values given [option] ++ values given rest :=
      @List.filterMap_append _ _ [option] rest _
    rw [collect] at h
    rcases hts : optionTokens given option with e | ts <;> rw [hts] at h
    · cases h
    · rcases hus : collect given rest with e | us <;> rw [hus] at h
      · cases h
      · cases h
        have hfirst : ∀ t ∈ ts, t = option ∨ t ∈ values given [option] := by
          rw [optionTokens] at hts
          split at hts
          · cases hts
            exact nofun
          · rename_i v hv
            split at hts
            · cases hts
              simp
            · rename_i s hs
              split at hts
              · cases hts
                simp [values, hv, hs]
              · cases hts
        intro t ht
        rw [hvalues, List.mem_cons, List.mem_append]
        rcases List.mem_append.1 ht with ht | ht
        · exact (hfirst t ht).imp .inl .inl
        · exact (ih hus t ht).imp .inr .inr

/-- A launch that is composed is clean, and its first section holds the separator just when one of
the options of the environment layer has it for a value. -/
theorem isClean_of_compose {clientId : UInt32} {app : String} {eal options : Table String Json}
    {l : Launch} (h : compose clientId app eal options = .ok l) :
    (Command.launch l).IsClean ∧ (separator ∈ l.eal ↔ separator ∈ values eal ealOptions) := by
  have hof := isOf_compose clientId app eal options
  rw [h] at hof
  have hcollect : collect eal ealOptions = .ok l.eal := by
    rw [compose] at h
    split at h
    · cases h
    · split at h
      · cases h
      · split at h
        · cases h
        · split at h
          · cases h
          · rename_i written hwritten
            rcases hoptions : collect options (appOptions app) with e | us <;> rw [hoptions] at h
            · cases h
            · cases h
              exact hwritten
  refine ⟨hof.isClean, fun hmem => ?_, fun hmem => hof.eal.values.subset hmem⟩
  exact (mem_of_collect hcollect _ hmem).resolve_left (by decide)

/-- The sections of a launch are kept apart as long as no option of the environment layer has the
value `--`. The line of such a launch is read with the sections that it has, and with no others; if
an option has that value, it is not. And no other such launch has the same line. -/
theorem sections_kept_apart {clientId clientId' : UInt32} {app app' : String}
    {eal options eal' options' : Table String Json} {l l' : Launch}
    (h : compose clientId app eal options = .ok l)
    (h' : compose clientId' app' eal' options' = .ok l') :
    (sectionsOf (Command.launch l).line = (l.eal, l.options) ↔
      separator ∉ values eal ealOptions) ∧
      (separator ∉ values eal ealOptions → separator ∉ values eal' ealOptions →
        (Command.launch l).line = (Command.launch l').line → l = l') := by
  obtain ⟨hclean, hsep⟩ := isClean_of_compose h
  obtain ⟨hclean', hsep'⟩ := isClean_of_compose h'
  exact ⟨(sectionsOf_line hclean).trans (not_congr hsep), fun hno hno' =>
    eq_of_line hclean hclean' (mt hsep.1 hno) (mt hsep'.1 hno')⟩

/-- Options of the environment layer, none of which has a value that could be confused. -/
def cores : Table String Json :=
  [("--proc-type", .string "secondary"), ("-l", .string "1,2")]

theorem sections_kept_apart_with_cores :
    ∃ l l', compose 2 "spp_nfv" cores [("-n", .string "--")] = .ok l ∧
      compose 3 "testpmd" cores [] = .ok l' ∧
      sectionsOf (Command.launch l).line = (l.eal, l.options) ∧
      sectionsOf (Command.launch l').line = (l'.eal, l'.options) := by
  have hno : separator ∉ values cores ealOptions := by decide +kernel
  have h : compose 2 "spp_nfv" cores [("-n", .string "--")] =
      .ok ⟨2, "spp_nfv", ["-l", "1,2", "--proc-type", "secondary"], ["-n", "--"]⟩ :=
    Except.eq_ok_of_toOption (by decide +kernel)
  have h' : compose 3 "testpmd" cores [] =
      .ok ⟨3, "testpmd", ["-l", "1,2", "--proc-type", "secondary"], []⟩ :=
    Except.eq_ok_of_toOption (by decide +kernel)
  exact ⟨_, _, h, h', (sections_kept_apart h h').1.2 hno, (sections_kept_apart h' h).1.2 hno⟩

/-- A value that is the separator is read as the end of the section, and two launches with different
sections have the same line. -/
theorem separator_as_value :
    ∃ l l', compose 1 "spp_nfv" [("--proc-type", .string "--"), ("-l", .string "1"), ("-n", .null)]
        [("-s", .string "x")] = .ok l ∧
      compose 1 "spp_nfv" [("--proc-type", .null), ("-l", .string "1")]
        [("-n", .string "--"), ("-s", .string "x")] = .ok l' ∧
      l.eal ≠ l'.eal ∧ l.options ≠ l'.options ∧
      (Command.launch l).line = (Command.launch l').line ∧
      sectionsOf (Command.launch l).line ≠ (l.eal, l.options) :=
  ⟨⟨1, "spp_nfv", ["-l", "1", "--proc-type", "--", "-n"], ["-s", "x"]⟩,
    ⟨1, "spp_nfv", ["-l", "1", "--proc-type"], ["-n", "--", "-s", "x"]⟩,
    Except.eq_ok_of_toOption (by decide +kernel), Except.eq_ok_of_toOption (by decide +kernel),
    by decide +kernel⟩

end Launch

end WorkerBroker
