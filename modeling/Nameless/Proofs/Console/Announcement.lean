import Nameless.Console.Guard
import Nameless.Proofs.Task

/-!
# What the console prints

An announced error and a warning print the place they are about, a label, the
message and a diagnosis.  While at most one line is being worked on, the place
is in that line: `innermost_put` and `active_put`.
-/

namespace Nameless

namespace OrderedMap

variable {κ α : Type} [DecidableEq κ]

theorem putIn_putIn (key : κ) (first second : α) (entries : List (κ × α)) :
    putIn key second (putIn key first entries) = putIn key second entries := by
  induction entries with
  | nil => simp [putIn]
  | cons entry entries ih =>
      by_cases h : entry.1 = key
      · simp [putIn, h]
      · simp [putIn, h, ih]

@[simp] theorem put_put (m : OrderedMap κ α) (key : κ) (first second : α) :
    (m.put key first).put key second = m.put key second :=
  congrArg mk (putIn_putIn key first second m.entries)

/-- An entry takes the place of an earlier one of its key or comes last. -/
theorem exists_putIn (key : κ) (value : α) (entries : List (κ × α)) :
    ∃ before after, putIn key value entries = before ++ (key, value) :: after ∧
      before ⊆ entries ∧ after ⊆ entries := by
  induction entries with
  | nil => exact ⟨[], [], rfl, List.Subset.refl _, List.Subset.refl _⟩
  | cons entry entries ih =>
      by_cases h : entry.1 = key
      · refine ⟨[], entries, ?_, List.nil_subset _, List.subset_cons_self _ _⟩
        rw [putIn, if_pos h]
        rfl
      · obtain ⟨before, after, hput, hbefore, hafter⟩ := ih
        refine ⟨entry :: before, after, ?_, List.cons_subset_cons _ hbefore,
          List.subset_cons_of_subset _ hafter⟩
        rw [putIn, if_neg h, hput]
        rfl

end OrderedMap

namespace Console

variable {c : Console} {path : String} {report : Report} {message : String}

/-! ## Quiet consoles -/

/-- No line is being worked on. -/
def Quiet (c : Console) : Prop := ∀ entry ∈ c.trace.entries, entry.2 = none

theorem quiet_new (style : Style) (isFatal : Bool) :
    (new style isFatal).Quiet := fun _ h ↦ absurd h List.not_mem_nil

theorem quiet_fill (c : Console) :
    { c with trace := c.trace.fill none }.Quiet := by
  intro entry h
  obtain ⟨_, -, rfl⟩ := List.mem_map.1 h
  rfl

theorem Quiet.put (h : c.Quiet) (path : String) :
    { c with trace := c.trace.put path none }.Quiet := by
  obtain ⟨before, after, hput, hbefore, hafter⟩ :=
    OrderedMap.exists_putIn path none c.trace.entries
  intro entry hentry
  change entry ∈ OrderedMap.putIn path none c.trace.entries at hentry
  rw [hput] at hentry
  rcases List.mem_append.1 hentry with hmem | hmem
  · exact h entry (hbefore hmem)
  · rcases List.mem_cons.1 hmem with rfl | hmem
    · rfl
    · exact h entry (hafter hmem)

theorem innermost_put (h : c.Quiet) (path : String) (place : Place) :
    { c with trace := c.trace.put path (some place) }.innermost =
      some (path, place) := by
  obtain ⟨before, after, hput, -, hafter⟩ :=
    OrderedMap.exists_putIn path (some place) c.trace.entries
  have hquiet : after.reverse.findSome? (fun entry ↦
      entry.2.map fun place ↦ (entry.1, place)) = none := by
    rw [List.findSome?_eq_none_iff]
    intro entry hentry
    rw [h entry (hafter (List.mem_reverse.1 hentry))]
    rfl
  change (OrderedMap.putIn path (some place) c.trace.entries).reverse.findSome?
    _ = _
  rw [hput, List.reverse_append, List.reverse_cons, List.append_assoc,
    List.findSome?_append, hquiet]
  rfl

theorem active_put (h : c.Quiet) (path : String) {place : Place}
    (hline : place.line ≠ "") :
    { c with trace := c.trace.put path (some place) }.active =
      [(path, place)] := by
  obtain ⟨before, after, hput, hbefore, hafter⟩ :=
    OrderedMap.exists_putIn path (some place) c.trace.entries
  have hquiet : ∀ f : String × Option Place → Option (String × Place),
      (∀ name, f (name, none) = none) →
        ∀ entries, entries ⊆ c.trace.entries → entries.filterMap f = [] := by
    intro f hf entries hentries
    rw [List.filterMap_eq_nil_iff]
    rintro ⟨name, value⟩ hentry
    have hvalue : value = none := h _ (hentries hentry)
    rw [hvalue, hf]
  have hnonempty : place.line.isEmpty = false :=
    String.isEmpty_eq_false_iff.2 hline
  change (OrderedMap.putIn path (some place) c.trace.entries).filterMap _ = _
  rw [hput, List.filterMap_append, List.filterMap_cons,
    hquiet _ (fun _ ↦ rfl) before hbefore,
    hquiet _ (fun _ ↦ rfl) after hafter]
  simp [hnonempty]

/-- The column of a report about a whole line is the start of its span. -/
theorem column_self {line : String} (hexpression : report.expression = line)
    (hstart : line = "" → report.start = 0) :
    column line report = report.start := by
  rw [column, hexpression]
  by_cases hempty : line.isEmpty = true
  · rw [if_pos hempty, hstart (String.isEmpty_iff.1 hempty)]
  · have hfind : Text.find? line.toList line.toList = some 0 := by
      rw [Text.find?.eq_def, if_pos (by simp)]
    rw [if_neg hempty, hfind]
    simp

/-! ## Warnings and errors -/

/-- The lines that mark the span of a report, if they are shown. -/
def diagnosisText (c : Console) (report : Report) (severity : Severity) :
    String :=
  if report.isDiagnosed then report.diagnose c.style severity ++ "\n" else ""

def warningText (c : Console) (report : Report) (message : String) : String :=
  c.style.bold (c.location report) ++
    c.style.vivid .warning Severity.warning.label ++ message ++ "\n" ++
      c.diagnosisText report .warning

def errorText (c : Console) (report : Report) (message : String) : String :=
  c.whereabouts report ++
    (if report.isInternal then c.style.vivid .error "[internal] " else "") ++
      c.style.vivid .error Severity.error.label ++ message ++ "\n" ++
        c.diagnosisText report .error

theorem writeLine_apply (line : String) (c : Console) :
    writeLine line c =
      .ok () { c with printed := c.printed ++ (line ++ "\n") } := rfl

theorem writeDiagnosis_apply (report : Report) (severity : Severity)
    (c : Console) :
    writeDiagnosis report severity c = .ok ()
      { c with printed := c.printed ++ c.diagnosisText report severity } := by
  change (if report.isDiagnosed then
    writeLine (report.diagnose c.style severity) else pure ()) c = _
  by_cases h : report.isDiagnosed = true
  · rw [if_pos h, diagnosisText, if_pos h]
    rfl
  · rw [if_neg h, diagnosisText, if_neg h, String.append_empty]
    rfl

theorem warn_apply (h : report.styledMessage c.style = .ok message) :
    warn (.ok report) c = .ok ()
      { c with printed := c.printed ++ c.warningText report message } := by
  have hfilled : Task.filled (report.styledMessage c.style) c =
      .ok message c := by
    rw [h]
    rfl
  rw [warn, Task.bind_of_ok (Task.filled_ok report c)]
  change (Task.filled (report.styledMessage c.style) >>= _) c = _
  rw [Task.bind_of_ok hfilled, Task.bind_of_ok (writeLine_apply _ c),
    writeDiagnosis_apply]
  simp only [warningText, String.append_assoc]
  rfl

/-- An announced error ends the program if the console is fatal, and else
leaves no line registered. -/
theorem announce_apply (h : report.styledMessage c.style = .ok message) :
    announce report c =
      if c.isFatal then
        .error (.exited (some 1))
          { c with printed := c.printed ++ c.errorText report message }
      else
        .ok () { c with
          printed := c.printed ++ c.errorText report message
          trace := c.trace.fill none } := by
  have hfilled : Task.filled (report.styledMessage c.style) c =
      .ok message c := by
    rw [h]
    rfl
  change (Task.filled (report.styledMessage c.style) >>= _) c = _
  rw [Task.bind_of_ok hfilled, Task.bind_of_ok (writeLine_apply _ c),
    Task.bind_of_ok (writeDiagnosis_apply report .error _)]
  have hprinted : c.printed ++ (c.whereabouts report ++
      (if report.isInternal then c.style.vivid .error "[internal] " else "") ++
      c.style.vivid .error Severity.error.label ++ message ++ "\n") ++
      c.diagnosisText report .error =
        c.printed ++ c.errorText report message := by
    simp only [errorText, String.append_assoc]
  by_cases hfatal : c.isFatal = true
  · rw [if_pos hfatal, if_pos hfatal, ← hprinted]
    rfl
  · rw [if_neg hfatal, if_neg hfatal, ← hprinted]
    rfl

/-- A report whose template cannot be filled a second time is not announced. -/
theorem announce_of_error {e : Text.TemplateFault}
    (h : report.styledMessage c.style = .error e) :
    announce report c = .error (.mishap (.template e)) c := by
  have hfilled : Task.filled (report.styledMessage c.style) c =
      .error (.mishap (.template e)) c := by
    rw [h]
    rfl
  exact Task.bind_of_error hfilled _

/-! ## Failures that are settled -/

theorem quiet_of_announce {c' : Console}
    (h : announce report c = .ok () c') : c'.Quiet := by
  cases hmessage : report.styledMessage c.style with
  | error e =>
      rw [announce_of_error hmessage] at h
      cases h
  | ok message =>
      rw [announce_apply hmessage] at h
      split at h
      · cases h
      · cases h
        exact quiet_fill _

/-- A failure that is swallowed takes all lines off the trace, wherever it
broke off what was being done. -/
theorem quiet_of_settle {c' : Console} {e : Failure}
    (h : settle e c = .ok () c') : c'.Quiet := by
  have hbare : ∀ {message}, announceBare message c = .ok () c' → c'.Quiet := by
    intro message hbare
    obtain ⟨report, mid, -, hannounce⟩ := Task.exists_of_bind_eq_ok hbare
    exact quiet_of_announce hannounce
  cases e with
  | rejected r report => exact quiet_of_announce h
  | reported report => exact quiet_of_announce h
  | interrupted text => exact hbare h
  | tooDeep text => exact hbare h
  | exited code => cases h
  | mishap m =>
      obtain ⟨report, mid, -, hrest⟩ := Task.exists_of_bind_eq_ok h
      obtain ⟨-, last, -, hthrow⟩ := Task.exists_of_bind_eq_ok hrest
      cases hthrow

/-- A console of a certain style that lives on after an error, with no line
registered. -/
structure Calm (c : Console) (style : Style) : Prop where
  quiet : c.Quiet
  isFatal : c.isFatal = false
  style_eq : c.style = style

theorem Calm.put {style : Style} (h : c.Calm style) (path : String) :
    { c with trace := c.trace.put path none }.Calm style :=
  ⟨h.quiet.put path, h.isFatal, h.style_eq⟩

theorem announce_calm (style : Style) (report : Report) :
    Task.Keeps (Calm · style) (announce report) := by
  intro c h
  cases hmessage : report.styledMessage c.style with
  | error e =>
      rw [Task.leaves_of_error (announce_of_error hmessage)]
      exact h
  | ok message =>
      have hannounce := announce_apply hmessage
      rw [if_neg (by simp [h.isFatal])] at hannounce
      rw [Task.leaves_of_ok hannounce]
      exact ⟨quiet_fill _, h.isFatal, h.style_eq⟩

/-- Settling a failure leaves a calm console calm, even if the failure is let
through or cannot be announced. -/
theorem settle_calm (style : Style) (e : Failure) :
    Task.Keeps (Calm · style) (settle e) := by
  have hbare : ∀ message, Task.Keeps (Calm · style) (announceBare message) :=
    fun _ ↦ (Task.keeps_filled _ _).bind fun report ↦ announce_calm style report
  cases e with
  | rejected r report => exact announce_calm style report
  | reported report => exact announce_calm style report
  | interrupted text => exact hbare _
  | tooDeep text => exact hbare _
  | exited code => exact Task.keeps_throw _ _
  | mishap m =>
      exact (Task.keeps_filled _ _).bind fun report ↦
        (announce_calm style report).bind fun _ ↦ Task.keeps_throw _ _

end Console
end Nameless
