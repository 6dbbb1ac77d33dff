import Nameless.Failure
import Nameless.Proofs.Text.Filling

/-!
# Messages of rejections

Every rejection can be reported: its template takes its excerpts, plain or in
bold.
-/

namespace Nameless.Surface.Rejection

open Text.Template (Plain format format_plain format_numbered)

/-- The message of a rejection, its excerpts written in a certain way. -/
def messageWith (r : Rejection) (mark : String → String) : String :=
  match r.cause with
  | .noExpression =>
    if r.isAtEnd then "expected expression instead of end of input"
    else "expected expression instead of: '" ++ mark r.rest ++ "'"
  | .leftOver =>
    "expected expression or end of input instead of: '" ++ mark r.rest ++ "'"
  | .unbound name => "variable '" ++ mark name ++ "' not found"
  | .noParameter =>
    "expected parameter name instead of: '" ++ mark r.rest ++ "'"
  | .noDot => "expected '.' instead of: '" ++ mark r.rest ++ "'"
  | .unclosed =>
    if r.isAtEnd then "expected ')' instead of end of input"
    else "expected ')' instead of: '" ++ mark r.rest ++ "'"

theorem format_rest {template : String} (before : String)
    (htemplate : template.toList =
      before.toList ++ '\x7b' :: '1' :: '\x7d' :: "'".toList)
    (hbefore : Plain before.toList) (text rest : String) :
    format template [text, rest] = .ok (before ++ rest ++ "'") :=
  format_numbered before "'" htemplate hbefore (by decide) (by decide) rfl rfl

theorem format_template (r : Rejection) (mark : String → String) :
    format r.template (r.excerpts.map mark) = .ok (r.messageWith mark) := by
  obtain ⟨text, pos, cause⟩ := r
  cases cause with
  | noExpression =>
      dsimp only [template, messageWith, excerpts]
      split
      · exact format_plain (by decide) _
      · exact format_rest "expected expression instead of: '" (by simp)
          (by decide) _ _
  | leftOver =>
      dsimp only [template, messageWith, excerpts]
      exact format_rest "expected expression or end of input instead of: '"
        (by simp) (by decide) _ _
  | unbound name =>
      dsimp only [template, messageWith, excerpts]
      exact format_numbered "variable '" "' not found" (d := '2') (by simp)
        (by decide) (by decide) (by decide) rfl rfl
  | noParameter =>
      dsimp only [template, messageWith, excerpts]
      exact format_rest "expected parameter name instead of: '" (by simp)
        (by decide) _ _
  | noDot =>
      dsimp only [template, messageWith, excerpts]
      exact format_rest "expected '.' instead of: '" (by simp) (by decide) _ _
  | unclosed =>
      dsimp only [template, messageWith, excerpts]
      split
      · exact format_plain (by decide) _
      · exact format_rest "expected ')' instead of: '" (by simp) (by decide) _ _

/-- The end of the span at fault: that of the name that is unbound, or that
of the text. -/
def spanEnd (r : Rejection) : Nat :=
  match r.cause with
  | .unbound name => r.pos + name.length
  | _ => r.text.length

/-- The report that a rejection has. -/
def account (r : Rejection) : Report :=
  ⟨r.template, r.excerpts, r.pos, r.spanEnd, true, false, r.messageWith id⟩

theorem expression_account (r : Rejection) : r.account.expression = r.text := by
  obtain ⟨text, pos, cause⟩ := r
  cases cause <;> rfl

theorem report_eq (r : Rejection) : r.report = .ok r.account := by
  have hformat := r.format_template id
  rw [List.map_id] at hformat
  have hstop : (if r.stop = -1 then
      ((Report.expressionOf r.excerpts).length : Int) else r.stop) =
      r.spanEnd := by
    obtain ⟨text, pos, cause⟩ := r
    cases cause with
    | unbound name =>
        simp only [stop, spanEnd]
        omega
    | _ => rfl
  rw [report, Report.new, hformat]
  simp only [bind, Except.bind, pure, Except.pure, hstop]
  rfl

theorem ofRejection_eq (r : Rejection) :
    Failure.ofRejection r = .rejected r r.account := by
  rw [Failure.ofRejection, report_eq]

theorem styledMessage_account (r : Rejection) (style : Style) :
    r.account.styledMessage style = .ok (r.messageWith style.bold) :=
  r.format_template style.bold

end Nameless.Surface.Rejection
