import Nameless.Proofs.Session.Opening

/-!
# Work on a shared console

Sessions may share a console: each block of work opens a session or gives one
of them something to do, and is guarded on its own.  A block has statements to
read, and it is refused for the first of them that cannot be read.
-/

namespace Nameless

open Session (assemble isOpen openAt promptPath readLines)
open Surface (Rejection parse)

/-- Sessions, in the order they were opened in, and the console they share. -/
structure Office where
  sessions : List Session
  console : Console

namespace Office

/-- No session is open yet, and no error will end the program. -/
def new (style : Style) : Office := ⟨[], .new style false⟩

def atConsole {α : Type} (task : Task Console α) : Task Office α :=
  fun office ↦
    match task office.console with
    | .ok a console => .ok a { office with console }
    | .error e console => .error e { office with console }

/-- The office after work at one of its sessions. -/
def withDesk (office : Office) (i : Nat) (desk : Desk) : Office :=
  ⟨office.sessions.set i desk.session, desk.console⟩

/-- Work at a session, if there is such a session. -/
def atDesk (i : Nat) (task : Task Desk Unit) : Task Office Unit :=
  fun office ↦
    match office.sessions[i]? with
    | none => .ok () office
    | some session =>
      match task ⟨session, office.console⟩ with
      | .ok _ desk => .ok () (office.withDesk i desk)
      | .error e desk => .error e (office.withDesk i desk)

end Office

/-- What is done under one guard: a session is opened or has work to do. -/
inductive Block where
  | opening (files : Files) (path : String) (limit : Nat)
      (isInteractive : Bool)
  | add (i : Nat) (text : String) (number : Int)
  | feed (i : Nat) (line : String)
  | run (i : Nat)

def Block.work : Block → Task Office Unit
  | opening files path limit isInteractive => do
    let session ←
      Office.atConsole (openAt files path (.steps limit) isInteractive)
    modify fun office ↦
      { office with sessions := office.sessions ++ [session] }
  | add i text number => Office.atDesk i (Session.add text number)
  | feed i line => Office.atDesk i (Session.feed line)
  | run i => Office.atDesk i Session.run

/-- A statement that cannot be read, and the file and the line it is in. -/
structure Refusal where
  path : String
  place : Place
  rejection : Rejection

namespace Office

variable {office : Office} {style : Style} {block : Block}

def afterBlock (office : Office) (block : Block) : Office :=
  (Console.guardedBy atConsole block.work).leaves office

def after (style : Style) (blocks : List Block) : Office :=
  blocks.foldl afterBlock (new style)

/-- The statements that a block has to read, with their files and lines.  The
statements that are run were read before. -/
def statements (office : Office) : Block → List (String × Place)
  | .opening files path _ _ =>
    if path = promptPath then []
    else
      match readLines files path office.console with
      | .ok lines _ =>
        (assemble lines).map fun draft ↦ (path, ⟨draft.text, draft.number⟩)
      | .error _ _ => []
  | .add i text number =>
    match office.sessions[i]? with
    | none => []
    | some session => [(session.path, ⟨text, number⟩)]
  | .feed i line =>
    match office.sessions[i]? with
    | none => []
    | some session =>
      let text := session.textWith line
      if text = "" ∨ isOpen text then []
      else [(session.path, ⟨text, (session.lineNumber + 1 : Nat)⟩)]
  | .run _ => []

def refusalOf? (path : String) (place : Place) : Option Refusal :=
  match parse place.line with
  | .ok _ => none
  | .error r => some ⟨path, place, r⟩

/-- The first statement of a block that cannot be read. -/
def refusal? (office : Office) (block : Block) : Option Refusal :=
  (office.statements block).findSome? fun entry ↦ refusalOf? entry.1 entry.2

theorem refusalOf?_eq_none_iff {path text : String} {number : Int} :
    refusalOf? path ⟨text, number⟩ = none ↔ ∃ t, parse text = .ok t := by
  rw [refusalOf?]
  dsimp only
  cases parse text <;> simp

theorem refusalOf?_eq_some_iff {path text : String} {number : Int}
    {refusal : Refusal} :
    refusalOf? path ⟨text, number⟩ = some refusal ↔
      ∃ r, parse text = .error r ∧ refusal = ⟨path, ⟨text, number⟩, r⟩ := by
  rw [refusalOf?]
  dsimp only
  cases parse text with
  | ok t => simp
  | error r => simp [eq_comm]

theorem parse_of_refusal? {refusal : Refusal}
    (h : office.refusal? block = some refusal) :
    parse refusal.place.line = .error refusal.rejection := by
  obtain ⟨⟨path, text, number⟩, -, hentry⟩ :=
    List.exists_of_findSome?_eq_some h
  obtain ⟨r, hread, rfl⟩ := refusalOf?_eq_some_iff.1 hentry
  exact hread

/-! ## What blocks do -/

variable {i : Nat} {session : Session} {task : Task Desk Unit} {desk : Desk}
  {files : Files} {path : String} {limit : Nat} {isInteractive : Bool}
  {console : Console}

theorem refusal?_add_of_none (hi : office.sessions[i]? = none) (text : String)
    (number : Int) : office.refusal? (.add i text number) = none := by
  rw [refusal?, statements, hi]
  rfl

theorem refusal?_add (hi : office.sessions[i]? = some session)
    (text : String) (number : Int) :
    office.refusal? (.add i text number) =
      refusalOf? session.path ⟨text, number⟩ := by
  rw [refusal?, statements, hi]
  exact List.findSome?_singleton

theorem atDesk_of_none (hi : office.sessions[i]? = none) :
    atDesk i task office = .ok () office := by
  rw [atDesk, hi]

theorem atDesk_of_ok (hi : office.sessions[i]? = some session)
    (h : task ⟨session, office.console⟩ = .ok () desk) :
    atDesk i task office = .ok () (office.withDesk i desk) := by
  rw [atDesk, hi]
  dsimp only
  rw [h]

theorem atDesk_of_error {e : Failure}
    (hi : office.sessions[i]? = some session)
    (h : task ⟨session, office.console⟩ = .error e desk) :
    atDesk i task office = .error e (office.withDesk i desk) := by
  rw [atDesk, hi]
  dsimp only
  rw [h]

theorem work_opening_of_ok
    (h : openAt files path (.steps limit) isInteractive office.console =
      .ok session console) :
    (Block.opening files path limit isInteractive).work office =
      .ok () ⟨office.sessions ++ [session], console⟩ := by
  have hopen : atConsole (openAt files path (.steps limit) isInteractive)
      office = .ok session { office with console } := by
    rw [atConsole, h]
  exact Task.bind_of_ok hopen _

theorem work_opening_of_error {e : Failure}
    (h : openAt files path (.steps limit) isInteractive office.console =
      .error e console) :
    (Block.opening files path limit isInteractive).work office =
      .error e { office with console } := by
  have hopen : atConsole (openAt files path (.steps limit) isInteractive)
      office = .error e { office with console } := by
    rw [atConsole, h]
  exact Task.bind_of_error hopen _

theorem leaves_atConsole (task : Task Console Unit) (office : Office) :
    (atConsole task).leaves office =
      { office with console := task.leaves office.console } := by
  rw [Task.leaves, atConsole, Task.leaves]
  cases task office.console <;> rfl

theorem afterBlock_of_ok {last : Office}
    (h : block.work office = .ok () last) : office.afterBlock block = last :=
  Task.leaves_of_ok (Console.guardedBy_of_ok h)

theorem afterBlock_of_error {mid : Office} {e : Failure}
    (h : block.work office = .error e mid) :
    office.afterBlock block = { mid with
      console := (Console.settle e).leaves mid.console } :=
  (Console.leaves_guardedBy_of_error h).trans (leaves_atConsole _ _)

theorem after_append (style : Style) (blocks : List Block) (block : Block) :
    after style (blocks ++ [block]) =
      (after style blocks).afterBlock block := by
  rw [after, List.foldl_append]
  rfl

end Office
end Nameless
