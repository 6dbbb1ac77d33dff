import Nameless.Proofs.Console.Announcement
import Nameless.Proofs.Surface.Message
import Nameless.Proofs.Surface.Place

/-!
# How a rejected statement is shown

While its line is the only one that is registered, the error about a rejected
statement begins with the file, the line and the place in it.  The statement
is shown as a whole, over a line that marks the span at fault; the span of an
unbound name is that name.
-/

namespace Nameless

namespace Text

theorem place_of_nonneg (length : Nat) {bound : Int} (h : 0 ≤ bound) :
    place length bound = min bound.toNat length := by
  rw [place, if_neg (by omega)]

/-- Cutting a text in three loses nothing. -/
theorem before_between_after (s : String) {start stop : Int}
    (hstart : 0 ≤ start) (h : start ≤ stop) :
    before s start ++ between s start stop ++ after s stop = s := by
  let low := min start.toNat s.length
  let high := min stop.toNat s.length
  have hlow : low ≤ high := by omega
  have hrest : (s.toList.drop low).take (high - low) ++ s.toList.drop high =
      s.toList.drop low := by
    have hdrop : s.toList.drop high =
        (s.toList.drop low).drop (high - low) := by
      rw [List.drop_drop]
      congr 1
      omega
    rw [hdrop, List.take_append_drop]
  rw [before, between, after, place_of_nonneg _ hstart,
    place_of_nonneg _ (Int.le_trans hstart h), ← String.ofList_append,
    ← String.ofList_append, List.append_assoc, hrest, List.take_append_drop,
    String.ofList_toList]

end Text

namespace Report

/-- Without colours, a diagnosis is the expression over a line that marks the
span. -/
theorem diagnose_plain (report : Report) (severity : Severity)
    (h : 0 ≤ report.start) :
    report.diagnose .plain severity =
      "  " ++ report.expression ++ "\n" ++ "  " ++
        Text.copies report.start ' ' ++ "^" ++
          Text.copies
            (max report.stop (report.start + 1) - report.start - 1) '~' := by
  have hcut := Text.before_between_after report.expression h
    (show report.start ≤ max report.stop (report.start + 1) by omega)
  simp only [diagnose, Style.vivid_plain]
  rw [← hcut]
  simp only [String.append_assoc, hcut]

end Report

namespace Surface.Rejection

variable {r : Rejection}

/-- Where the marks under a rejected text end.  There is at least one. -/
def markEnd (r : Rejection) : Nat := max r.spanEnd (r.pos + 1)

/-- As many places are marked for an unbound name as it has. -/
theorem IsAbout.markEnd_eq {text x : String} (h : r.IsAbout text)
    (hcause : r.cause = .unbound x) : r.markEnd = r.pos + x.length := by
  obtain ⟨after, hname⟩ := h.name x hcause
  have hpos : 0 < x.toList.length :=
    List.length_pos_iff.2 (eq_append_of_name? hname).1
  rw [markEnd, spanEnd, hcause]
  dsimp only
  rw [← String.length_toList]
  omega

/-- What is marked for an unbound name is the name. -/
theorem IsAbout.between_eq {text x : String} (h : r.IsAbout text)
    (hcause : r.cause = .unbound x) :
    Text.between text r.pos r.markEnd = x := by
  obtain ⟨after, hname⟩ := h.name x hcause
  have hdrop := (eq_append_of_name? hname).2
  have hlength := congrArg List.length hdrop
  have hle := h.pos_le
  rw [List.length_drop, List.length_append] at hlength
  rw [← String.length_toList] at hle
  rw [Text.between, Text.place_of_nonneg _ (Int.natCast_nonneg _),
    Text.place_of_nonneg _ (Int.natCast_nonneg _), h.markEnd_eq hcause,
    ← String.length_toList, ← String.length_toList, Int.toNat_natCast,
    Int.toNat_natCast, Nat.min_eq_left hle, Nat.min_eq_left (by omega), hdrop,
    Nat.add_sub_cancel_left, List.take_left, String.ofList_toList]

end Surface.Rejection

namespace Console

open Surface (Rejection parse)

variable {c : Console} {path : String} {place : Place} {r : Rejection}

/-- The report of a rejected statement of a file, colours off. -/
def reported (path : String) (place : Place) (r : Rejection) : String :=
  s!"{path}:{place.number}:{r.pos}: " ++ s!"error: {r.messageWith id}\n" ++
    s!"  {place.line}\n" ++
      ("  " ++ String.ofList (List.replicate r.pos ' ') ++ "^" ++
        String.ofList (List.replicate (r.markEnd - r.pos - 1) '~') ++ "\n")

theorem expression_rejected (h : parse place.line = .error r) :
    r.account.expression = place.line :=
  r.expression_account.trans (Surface.isAbout_of_parse h).text_eq

theorem isDiagnosed_rejected (hline : place.line ≠ "")
    (h : parse place.line = .error r) : r.account.isDiagnosed = true := by
  rw [Report.isDiagnosed, expression_rejected h,
    String.isEmpty_eq_false_iff.2 hline]
  rfl

/-- The error about a rejected statement begins with its place. -/
theorem whereabouts_rejected (hquiet : c.Quiet) (path : String)
    (hline : place.line ≠ "") (h : parse place.line = .error r) :
    { c with trace := c.trace.put path (some place) }.whereabouts r.account =
      c.style.bold s!"{path}:{place.number}:{r.pos}: " := by
  have hcolumn : column place.line r.account = r.pos :=
    column_self (expression_rejected h) fun hempty ↦ absurd hempty hline
  rw [whereabouts, active_put hquiet path hline, location,
    innermost_put hquiet]
  dsimp only
  rw [hcolumn]
  rfl

theorem errorText_rejected (hquiet : c.Quiet) (path : String)
    (hline : place.line ≠ "") (h : parse place.line = .error r) :
    { c with trace := c.trace.put path (some place) }.errorText r.account
        (r.messageWith c.style.bold) =
      c.style.bold s!"{path}:{place.number}:{r.pos}: " ++
        c.style.vivid .error Severity.error.label ++
          r.messageWith c.style.bold ++ "\n" ++
            r.account.diagnose c.style .error ++ "\n" := by
  rw [errorText, whereabouts_rejected hquiet path hline h, diagnosisText,
    if_pos (isDiagnosed_rejected hline h)]
  simp only [String.append_assoc]
  rfl

/-- Without colours, the error says where the statement goes wrong, shows it,
and marks the span at fault below. -/
theorem errorText_rejected_plain (hquiet : c.Quiet) (hstyle : c.style = .plain)
    (path : String) (hline : place.line ≠ "")
    (h : parse place.line = .error r) :
    { c with trace := c.trace.put path (some place) }.errorText r.account
        (r.messageWith c.style.bold) = reported path place r := by
  have hspan : (max (r.spanEnd : Int) (r.pos + 1) - r.pos - 1).toNat =
      r.markEnd - r.pos - 1 := by
    rw [Rejection.markEnd]
    omega
  have hdiagnosis : r.account.diagnose .plain .error =
      "  " ++ place.line ++ "\n" ++ "  " ++
        String.ofList (List.replicate r.pos ' ') ++ "^" ++
          String.ofList (List.replicate (r.markEnd - r.pos - 1) '~') := by
    rw [Report.diagnose_plain _ _ (Int.natCast_nonneg r.pos),
      expression_rejected h, ← hspan]
    rfl
  rw [errorText_rejected hquiet path hline h, hstyle, hdiagnosis]
  simp only [reported, Style.bold_plain, Style.vivid_plain,
    String.append_assoc]
  rfl

end Console
end Nameless
