import WorkerBroker.Reply
/-!
# Errors that workers report

A worker reports that it refused a command in one of two places: in the first entry of `results` or
in the reply itself. Either place should do. But an entry with a `result` of its own is taken for
all there is to say, so if that is no error, an error in the reply itself goes unnoticed
(`Json.IsOverruled`). And where `results` is no list but an object, its member `0` is taken for the
first entry (`Json.ReportsUnderZero`).

Apart from these two cases a reply is rejected if and only if it reports an error, and handed on as
it is otherwise (`rejected_iff_reported`).
-/

namespace WorkerBroker

namespace Json

theorem asString?_eq_some_iff {v : Json} {s : String} :
    v.asString? = some s ↔ v = .string s := by
  cases v with
  | string t => simp [asString?]
  | _ => exact ⟨nofun, nofun⟩

/-! ## Where errors are reported -/

/-- The `result` of a value is an error. -/
def ReportsError (v : Json) : Prop :=
  v.member? "result" = some (.string "error")

/-- The first entry of the list `results` reports an error. -/
def ReportsInResults (v : Json) : Prop :=
  ∃ first rest, v.member? "results" = some (.array (first :: rest)) ∧ first.ReportsError

/-- `results` is an object, and its member `0` reports an error. -/
def ReportsUnderZero (v : Json) : Prop :=
  ∃ entries first, v.member? "results" = some (.object entries) ∧
    Table.find? "0" entries = some first ∧ first.ReportsError

/-- What is taken for the first entry of `results` has a `result` that is no error. -/
def IsOverruled (v : Json) : Prop :=
  ∃ first x, v.at? ["results", "0"] = some first ∧ first.member? "result" = some x ∧
    x ≠ .string "error"

/-- What is taken for the first entry of `results`: the first item of a list, or the member `0` of
an object. -/
theorem at?_results_eq_some_iff {v first : Json} :
    v.at? ["results", "0"] = some first ↔
      (∃ rest, v.member? "results" = some (.array (first :: rest))) ∨
        ∃ entries, v.member? "results" = some (.object entries) ∧
          Table.find? "0" entries = some first := by
  have hstep : v.step? "results" = v.member? "results" := by
    cases v <;> rfl
  have hat : v.at? ["results", "0"] = (v.member? "results").bind (step? "0") := by
    rw [at?, hstep]
    refine congrArg _ (funext fun results => ?_)
    rw [at?]
    rcases step? "0" results <;> rfl
  rw [hat, Option.bind_eq_some_iff]
  constructor
  · rintro ⟨results, hresults, hfirst⟩
    cases results with
    | array items =>
      cases items with
      | nil => cases hfirst
      | cons x rest =>
        cases hfirst
        exact .inl ⟨rest, hresults⟩
    | object entries => exact .inr ⟨entries, hresults, hfirst⟩
    | _ => cases hfirst
  · rintro (⟨rest, hresults⟩ | ⟨entries, hresults, hfirst⟩)
    · exact ⟨_, hresults, rfl⟩
    · exact ⟨_, hresults, hfirst⟩

end Json

open Json

theorem reportedError_ne_none_iff (v : Json) :
    reportedError v ≠ none ↔ (resultPart v).ReportsError := by
  have hiff : ((resultPart v).member? "result").bind asString? = some "error" ↔
      (resultPart v).ReportsError := by
    simp [Option.bind_eq_some_iff, asString?_eq_some_iff, ReportsError]
  rw [reportedError]
  split
  · rename_i h
    exact iff_of_true nofun (hiff.1 h)
  · rename_i h
    exact iff_of_false (not_not_intro rfl) fun he => h (hiff.2 he)

/-- It is for the first entry of `results` to say how the command went, and only if it says nothing,
for the reply itself. -/
theorem resultPart_reportsError_iff (v : Json) :
    (resultPart v).ReportsError ↔
      (∃ first, v.at? ["results", "0"] = some first ∧ first.ReportsError) ∨
        v.ReportsError ∧ ¬v.IsOverruled := by
  rw [resultPart]
  rcases hentry : v.at? ["results", "0"] with _ | first
  · simp [IsOverruled, hentry]
  · rcases hresult : first.member? "result" with _ | x <;>
      simp [IsOverruled, hentry, hresult, ReportsError]

/-- The first entry of `results` is in a list or under `0`. -/
theorem entry_reportsError_iff (v : Json) :
    (∃ first, v.at? ["results", "0"] = some first ∧ first.ReportsError) ↔
      v.ReportsInResults ∨ v.ReportsUnderZero := by
  simp only [at?_results_eq_some_iff]
  constructor
  · rintro ⟨first, ⟨rest, hresults⟩ | ⟨entries, hresults, hfirst⟩, herror⟩
    · exact .inl ⟨first, rest, hresults, herror⟩
    · exact .inr ⟨entries, first, hresults, hfirst, herror⟩
  · rintro (⟨first, rest, hresults, herror⟩ | ⟨entries, first, hresults, hfirst, herror⟩)
    · exact ⟨first, .inl ⟨rest, hresults⟩, herror⟩
    · exact ⟨first, .inr ⟨entries, hresults, hfirst⟩, herror⟩

/-- An entry that reports an error does not overrule one. -/
theorem Json.IsOverruled.not_reportsError {v first : Json} (h : v.IsOverruled)
    (hentry : v.at? ["results", "0"] = some first) : ¬first.ReportsError := by
  obtain ⟨first', x, hentry', hx, hne⟩ := h
  cases hentry.symm.trans hentry'
  exact fun herror => hne (Option.some.inj (hx.symm.trans herror))

/-! ## Replies that are rejected -/

section

variable {raw raw' : Bytes} {v : Json}

/-- What a reply comes to is decided by its text. -/
theorem decodeReply_congr (h : replyText raw = replyText raw') :
    decodeReply raw = decodeReply raw' := by
  simp only [decodeReply, h]

theorem decodeReply_of_read (h : Json.read (Utf8.encode (replyText raw)) = .ok v) :
    decodeReply raw = judgeReply v := by
  simp only [decodeReply, h]

/-- A reply that is no JSON is handed on as its text. -/
theorem decodeReply_of_plain (h : ∀ v, Json.read (Utf8.encode (replyText raw)) ≠ .ok v) :
    decodeReply raw = .ok (.string (replyText raw)) := by
  rcases hread : Json.read (Utf8.encode (replyText raw)) with halt | v
  · simp only [decodeReply, hread]
  · exact absurd hread (h v)

/-- A reply is rejected, and then as it is, or handed on as it is. -/
theorem judgeReply_cases (v : Json) :
    (∃ detail, reportedError v = some detail ∧ judgeReply v = .error (.rejected detail v)) ∨
      reportedError v = none ∧ judgeReply v = .ok v := by
  rw [judgeReply]
  rcases reportedError v with _ | detail
  · exact .inr ⟨rfl, rfl⟩
  · exact .inl ⟨detail, rfl, rfl⟩

/-- A reply that comes to an error is rejected. -/
theorem rejected_of_decodeReply {e : Failure} (h : decodeReply raw = .error e) :
    ∃ detail reply, e = .rejected detail reply := by
  rcases hread : Json.read (Utf8.encode (replyText raw)) with halt | v
  · rw [decodeReply_of_plain (by simp [hread])] at h
    cases h
  · rw [decodeReply_of_read hread] at h
    rcases judgeReply_cases v with ⟨detail, -, hjudge⟩ | ⟨-, hjudge⟩
    · exact ⟨detail, v, Except.error.inj (h.symm.trans hjudge)⟩
    · cases h.symm.trans hjudge

/-- A reply is rejected if the first entry of `results` reports an error, or the reply itself does
and is not overruled. -/
theorem rejected_iff (h : Json.read (Utf8.encode (replyText raw)) = .ok v) :
    (∃ detail, decodeReply raw = .error (.rejected detail v)) ↔
      (v.ReportsInResults ∨ v.ReportsUnderZero) ∨ v.ReportsError ∧ ¬v.IsOverruled := by
  rw [← entry_reportsError_iff, ← resultPart_reportsError_iff, ← reportedError_ne_none_iff,
    decodeReply_of_read h]
  rcases judgeReply_cases v with ⟨detail, hsome, hjudge⟩ | ⟨hnone, hjudge⟩
  · rw [hsome, hjudge]
    exact iff_of_true ⟨detail, rfl⟩ nofun
  · rw [hnone, hjudge]
    exact iff_of_false nofun (not_not_intro rfl)

/-- A reply that is JSON is rejected with all that it says, or handed on unchanged. It is rejected
if and only if an error is reported in the first entry of `results`, or by the reply itself without
being overruled. So to look for errors in both places comes to the same if and only if no error of
the reply itself is overruled, and none is reported under `0` alone. -/
theorem rejected_iff_reported (h : Json.read (Utf8.encode (replyText raw)) = .ok v) :
    ((∃ detail, decodeReply raw = .error (.rejected detail v)) ∨ decodeReply raw = .ok v) ∧
      ((∃ detail, decodeReply raw = .error (.rejected detail v)) ↔
        (v.ReportsInResults ∨ v.ReportsUnderZero) ∨ v.ReportsError ∧ ¬v.IsOverruled) ∧
      (((∃ detail, decodeReply raw = .error (.rejected detail v)) ↔
          v.ReportsInResults ∨ v.ReportsError) ↔
        ¬(v.ReportsError ∧ v.IsOverruled) ∧ (v.ReportsUnderZero → v.ReportsError)) := by
  refine ⟨?_, rejected_iff h, ?_⟩
  · rw [decodeReply_of_read h]
    exact (judgeReply_cases v).imp (fun ⟨detail, _, hjudge⟩ => ⟨detail, hjudge⟩) And.right
  · rw [rejected_iff h]
    -- what is overruled is not reported in the entry that overrules it, and a list is no object
    have hentry : v.IsOverruled → ¬(v.ReportsInResults ∨ v.ReportsUnderZero) := by
      rw [← entry_reportsError_iff]
      rintro ho ⟨first, hfirst, herror⟩
      exact ho.not_reportsError hfirst herror
    have hapart : v.ReportsUnderZero → ¬v.ReportsInResults := by
      rintro ⟨entries, first, hobject, -⟩ ⟨first', rest, hlist, -⟩
      cases hobject.symm.trans hlist
    by_cases ho : v.IsOverruled
    · obtain ⟨hlist, hzero⟩ := not_or.1 (hentry ho)
      simp [ho, hlist, hzero]
    · by_cases hzero : v.ReportsUnderZero
      · simp [ho, hzero, hapart hzero]
      · simp [ho, hzero]

end

/-- What can be seen of a value that is read from the bytes of a reply. -/
theorem exists_of_read (raw : Bytes) (P : Json → Prop) [DecidablePred P]
    (h : (Json.read (Utf8.encode (replyText raw))).toOption.any fun v => P v) :
    ∃ v, Json.read (Utf8.encode (replyText raw)) = .ok v ∧ P v := by
  obtain ⟨v, hv, hp⟩ := (Option.any_eq_true _ _).1 h
  rcases hread : Json.read (Utf8.encode (replyText raw)) with e | v' <;> rw [hread] at hv <;>
    cases hv
  exact ⟨v, rfl, of_decide_eq_true hp⟩

/-- A reply in which both places have something to say. -/
def twofold (inResults itself : String) : Json :=
  .ofMembers [("results", .array [.ofMembers [("result", .string inResults)]]),
    ("result", .string itself)]

/-- An error in the first entry is seen, whatever the reply itself says. -/
theorem rejected_iff_reported_in_results :
    ∃ v, Json.read (Utf8.encode (replyText (twofold "error" "success").bytes)) = .ok v ∧
      ∃ detail, decodeReply (twofold "error" "success").bytes = .error (.rejected detail v) := by
  obtain ⟨v, hread, hentry⟩ := exists_of_read (twofold "error" "success").bytes
    (fun v => ((v.at? ["results", "0"]).bind (Json.member? "result")).bind Json.asString? =
      some "error") (by decide +kernel)
  obtain ⟨x, hx, hstring⟩ := Option.bind_eq_some_iff.1 hentry
  obtain ⟨first, hfirst, hresult⟩ := Option.bind_eq_some_iff.1 hx
  have herror : first.ReportsError :=
    hresult.trans (congrArg some (asString?_eq_some_iff.1 hstring))
  exact ⟨v, hread, (rejected_iff_reported hread).2.1.2
    (.inl ((entry_reportsError_iff v).1 ⟨first, hfirst, herror⟩))⟩

/-- An error of the reply itself goes unnoticed if the first entry is a success. -/
theorem accepted_though_reported :
    ∃ v, Json.read (Utf8.encode (replyText (twofold "success" "error").bytes)) = .ok v ∧
      v.ReportsError ∧ decodeReply (twofold "success" "error").bytes = .ok v := by
  obtain ⟨v, hread, hresult, hnone⟩ := exists_of_read (twofold "success" "error").bytes
    (fun v => (v.member? "result").bind Json.asString? = some "error" ∧ reportedError v = none)
    (by decide +kernel)
  obtain ⟨x, hx, hstring⟩ := Option.bind_eq_some_iff.1 hresult
  refine ⟨v, hread, hx.trans (congrArg some (asString?_eq_some_iff.1 hstring)), ?_⟩
  rw [decodeReply_of_read hread, judgeReply, hnone]

end WorkerBroker
