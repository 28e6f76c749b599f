import Refit.Build.Check
import Refit.Draft
import Refit.Repair.Status
import Refit.Strategy

namespace Refit.Repair

/-- At most this many proposals are tried for a file. -/
def maxAttempts : Nat := 3

@[simp] theorem maxAttempts_eq : maxAttempts = 3 := rfl

inductive Phase where
  | idle
  | screening
  | applying
  | awaiting
  | verifying
  | retrying
  | verified
  | exhausted
  | done
  deriving DecidableEq, Repr

def Phase.name : Phase → String
  | idle => "idle"
  | screening => "screening"
  | applying => "deterministic-rewrite"
  | awaiting => "awaiting-proposal"
  | verifying => "verifying"
  | retrying => "retrying"
  | verified => "verified"
  | exhausted => "exhausted"
  | done => "done"

/-- Someone who proposes code on request, with regard to what has happened so far. The events are
what there is to note about the answer. -/
structure Oracle where
  propose : Journal → (code instructions : String) → Option String × List Event

/-- Someone who builds the project as it is now, and may leave files behind. -/
structure Checker where
  check : Journal → Tree → Build.Outcome × List Event × Tree

structure Team where
  strategy : Strategy
  oracle : Option Oracle
  checker : Checker

/-- The repair of one file so far. -/
structure Session where
  draft : Draft
  world : World
  placed : Option Text.Span := none
  requested : Nat := 0
  trace : List Phase := [.idle]

namespace Session

def visit (s : Session) (p : Phase) : Session := { s with trace := s.trace ++ [p] }

def note (s : Session) (e : Event) : Session := { s with world := s.world.note e }

def say (s : Session) (tone : Tone) (message : String) : Session :=
  s.note (.status tone (s.draft.label ++ ": " ++ message))

section Fields

variable (s : Session) (p : Phase) (tone : Tone) (message : String)

@[simp] theorem visit_draft : (s.visit p).draft = s.draft := rfl

@[simp] theorem visit_world : (s.visit p).world = s.world := rfl

@[simp] theorem visit_requested : (s.visit p).requested = s.requested := rfl

@[simp] theorem visit_trace : (s.visit p).trace = s.trace ++ [p] := rfl

@[simp] theorem say_draft : (s.say tone message).draft = s.draft := rfl

@[simp] theorem say_world :
    (s.say tone message).world = s.world.say tone (s.draft.label ++ ": " ++ message) := rfl

@[simp] theorem say_requested : (s.say tone message).requested = s.requested := rfl

@[simp] theorem say_trace : (s.say tone message).trace = s.trace := rfl

end Fields

def ask (s : Session) (oracle : Oracle) (code instructions : String) : Option String × Session :=
  let s := { s.note (.asked code instructions) with requested := s.requested + 1 }
  let (reply, events) := oracle.propose s.world.journal code instructions
  (reply, { s with world := s.world.notes events })

def unplacedRecord (s : Session) (attempt : Nat) : Log.Record :=
  .debug .repair
    (s.draft.path ++ ": proposal for attempt " ++ toString attempt ++
      " could not be substituted")

/-- Puts a proposal where the last one stands, or in the place of the unit. -/
def place (s : Session) (anchor : String) (attempt : Nat) (proposal : String) : Session :=
  match (s.placed <|> s.draft.locate anchor).bind fun span => s.draft.replaceSpan span proposal with
  | some (draft, span) => { s with draft := draft, placed := some span }
  | none => { s with placed := none }.note (.log (s.unplacedRecord attempt))

def persist (s : Session) : Except Failure Session :=
  (s.draft.persist s.world.tree).map fun t => { s with world := { s.world with tree := t } }

def build (s : Session) (checker : Checker) : Build.Outcome × Session :=
  let onDisk := (s.world.tree.read s.draft.path).toOption
  let s := s.note (.building s.draft.content onDisk)
  let (outcome, events, t) := checker.check s.world.journal s.world.tree
  (outcome, { s with world := { s.world.notes events with tree := t } })

end Session

/-- How a repair ends: with a status, or with the failure to write the file. -/
structure Result where
  session : Session
  status : Except Failure Status

def finish (s : Session) (status : Status) : Result := ⟨s.visit .done, .ok status⟩

/-- One attempt after the other, as long as builds fail and some are left. -/
def attempts (team : Team) (oracle : Oracle) :
    (left attempt : Nat) → (code instructions : String) → Session → Result
  | left, attempt, code, instructions, s =>
    let s := s.visit .verifying
    let s := if attempt = 0 then s.say .info "requesting a rewrite" else s
    match s.ask oracle code instructions with
    | (none, s) =>
      let s := s.say .warning "no rewrite proposal available"
      finish (s.visit .exhausted) (.unverified (.noProposal attempt))
    | (some proposal, s) =>
      let s := s.place team.strategy.anchor attempt proposal
      match s.persist with
      | .error e => ⟨s, .error e⟩
      | .ok s =>
        match s.build team.checker with
        | (.success, s) =>
          let s := s.say .success "build passed"
          finish (s.visit .verified) (.verified attempt)
        | (.failed diagnostic, s) =>
          let s := s.visit .retrying
          let failed := "attempt " ++ toString (attempt + 1) ++ " failed, "
          match left with
          | 0 =>
            let s := s.say .error (failed ++ "no attempts left")
            finish (s.visit .exhausted) (.unverified (.budgetSpent diagnostic))
          | left + 1 =>
            let s := s.say .warning (failed ++ "requesting a fix")
            attempts team oracle left (attempt + 1) proposal
              (team.strategy.fixInstructions proposal diagnostic) s

/-- The repair of a draft from its screening to its end. -/
def run (team : Team) (draft : Draft) (w : World) : Result :=
  let s := Session.visit { draft, world := w } .screening
  if team.strategy.needsMigration draft.content then
    let s := s.visit .applying
    let s := { s with draft := s.draft.applyRules team.strategy.rules }
    let s := s.visit .awaiting
    match s.draft.unit? team.strategy.anchor, team.oracle with
    | none, _ => finish s (.rulesOnly .unitNotFound)
    | some _, none => finish s (.rulesOnly .noOracle)
    | some unit, some oracle =>
      attempts team oracle (maxAttempts - 1) 0 unit (team.strategy.initialInstructions unit) s
  else finish s .notNeeded

end Refit.Repair
