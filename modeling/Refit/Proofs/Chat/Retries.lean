import Mathlib.Tactic.IntervalCases
import Refit.Chat.Client

/-!
How a client repeats a request. It goes on while what comes back may pass and the settings leave a
repetition. Each repetition is told, comes after a longer pause than the one before, and sends the
same request (`complete_course`).
-/

namespace Refit

def Event.request? : Event → Option Chat.Request
  | .request r => some r
  | _ => none

namespace Chat

/-- A broken connection and some faults of the transport may pass, and so may too many requests and
the faults of a server. -/
inductive Exchange.Passing : Exchange → Prop
  | broken : Passing .broken
  | failed {fault : TransportFault}
      (kind : fault.timeout = true ∨ fault.connect = true ∨ fault.request = true) :
      Passing (.failed fault)
  | response {status : Nat} {body : String} (kind : status = 429 ∨ 500 ≤ status ∧ status ≤ 599) :
      Passing (.response status body)

namespace Client

variable {c : Client} {service : Service} {system user : String} {history : Journal} {r : Request}
  {x : Exchange} {o : Nat → Exchange} {left retry n : Nat}

theorem passing_iff (c : Client) (r : Request) (x : Exchange) :
    x.Passing ↔ ∃ e, c.read r x = .error e ∧ e.isRetryable = true := by
  cases x with
  | broken => exact ⟨fun _ => ⟨_, rfl, rfl⟩, fun _ => .broken⟩
  | failed fault =>
    have hkind : (ChatError.unreachable fault).isRetryable = true ↔
        fault.timeout = true ∨ fault.connect = true ∨ fault.request = true := by
      simp [ChatError.isRetryable, TransportFault.isPassing, or_assoc]
    constructor
    · intro h
      cases h with
      | failed kind => exact ⟨_, rfl, hkind.mpr kind⟩
    · rintro ⟨_, ⟨⟩, hretry⟩
      exact .failed (hkind.mp hretry)
  | response status body =>
    have hkind : (ChatError.status c.provider status (contentOf status body)).isRetryable = true ↔
        status = 429 ∨ 500 ≤ status ∧ status ≤ 599 := by
      simp [ChatError.isRetryable, Nat.lt_succ_iff]
    constructor
    · intro h
      cases h with
      | response kind =>
        have hsuccess : isSuccess status = false := by
          simp only [isSuccess, Bool.and_eq_false_iff, decide_eq_false_iff_not]
          omega
        exact ⟨_, by simp [Client.read, hsuccess], hkind.mpr kind⟩
    · rintro ⟨e, hread, hretry⟩
      apply Exchange.Passing.response
      apply hkind.mp
      dsimp only [Client.read] at hread
      split at hread
      · -- what is wrong with a success does not pass
        split at hread
        · cases hread
          cases hretry
        · split at hread
          · cases hread
            cases hretry
          · cases hread
      · cases hread
        exact hretry

/-- What an attempt leaves in the journal. -/
def attempt (c : Client) (user : String) (r : Request) : List Event :=
  [.log (c.sendingRecord user), .request r]

/-- What stands between an attempt and the next. -/
def between (c : Client) (r : Request) (x : Exchange) (retry : Nat) : List Event :=
  match c.read r x with
  | .ok _ => []
  | .error e => [.log (c.retryRecord e retry), .pause (2000 * retry)]

theorem send_eq (hr : c.request? system user = some r) (history : Journal) :
    c.send service system user history =
      (c.read r (service (history ++ c.attempt user r) r), c.attempt user r) := by
  unfold send
  rw [hr]
  rfl

theorem sendWith_passing (hr : c.request? system user = some r)
    (hx : service (history ++ c.attempt user r) r = x) (hp : x.Passing) :
    c.sendWith service system user (left + 1) retry history =
      let events := c.attempt user r ++ c.between r x retry
      let rest := c.sendWith service system user left (retry + 1) (history ++ events)
      (rest.1, events ++ rest.2) := by
  obtain ⟨e, hread, hretry⟩ := (passing_iff c r x).mp hp
  rw [sendWith, send_eq hr, hx, hread]
  simp only [hretry, if_true, between, hread, pauseBefore]

theorem sendWith_last (hr : c.request? system user = some r)
    (hx : service (history ++ c.attempt user r) r = x) (hlast : left = 0 ∨ ¬ x.Passing) :
    c.sendWith service system user left retry history = (c.read r x, c.attempt user r) := by
  rw [sendWith, send_eq hr, hx]
  cases hread : c.read r x with
  | ok text => rfl
  | error e =>
    cases left with
    | zero => rfl
    | succ left =>
      have hretry : e.isRetryable ≠ true := fun h =>
        hlast.resolve_left (Nat.succ_ne_zero left) ((passing_iff c r x).mpr ⟨e, hread, h⟩)
      simp [hretry]

/-- What `n` attempts leave in the journal that are all repeated. -/
def repeated (c : Client) (user : String) (r : Request) (o : Nat → Exchange) (n : Nat) :
    List Event :=
  (List.range n).flatMap fun i => c.attempt user r ++ c.between r (o i) (i + 1)

theorem repeated_succ (o : Nat → Exchange) (n : Nat) : c.repeated user r o (n + 1) =
    c.repeated user r o n ++ (c.attempt user r ++ c.between r (o n) (n + 1)) := by
  simp [repeated, List.range_succ]

/-- A service answers the attempts of a call in this way, one after the other. -/
def Answers (c : Client) (service : Service) (user : String) (history : Journal) (r : Request)
    (o : Nat → Exchange) : Prop :=
  ∀ i, service (history ++ c.repeated user r o i ++ c.attempt user r) r = o i

def reached (c : Client) (service : Service) (user : String) (history : Journal) (r : Request) :
    Nat → Journal
  | 0 => history
  | n + 1 =>
    let before := c.reached service user history r n
    before ++ (c.attempt user r ++ c.between r (service (before ++ c.attempt user r) r) (n + 1))

theorem exists_answers (c : Client) (service : Service) (user : String) (history : Journal)
    (r : Request) : ∃ o, c.Answers service user history r o := by
  let o (i : Nat) : Exchange := service (c.reached service user history r i ++ c.attempt user r) r
  have hreached (n : Nat) :
      c.reached service user history r n = history ++ c.repeated user r o n := by
    induction n with
    | zero => exact (List.append_nil _).symm
    | succ n ih =>
      rw [repeated_succ, ← List.append_assoc, ← ih]
      rfl
  refine ⟨o, fun i => ?_⟩
  rw [← hreached]

theorem complete_reaches (hr : c.request? system user = some r)
    (ho : c.Answers service user history r o) (hn : n ≤ c.maxRetries)
    (hp : ∀ i < n, (o i).Passing) :
    c.complete service system user history =
      let rest := c.sendWith service system user (c.maxRetries - n) (n + 1)
        (history ++ c.repeated user r o n)
      (rest.1, c.repeated user r o n ++ rest.2) := by
  induction n with
  | zero => simp [complete, repeated]
  | succ n ih =>
    have hleft : c.maxRetries - n = c.maxRetries - (n + 1) + 1 := by omega
    rw [ih (Nat.le_of_succ_le hn) fun i hi => hp i (Nat.lt_succ_of_lt hi), hleft,
      sendWith_passing hr (ho n) (hp n (Nat.lt_succ_self n)), repeated_succ]
    simp only [List.append_assoc]

theorem complete_ends (hr : c.request? system user = some r)
    (ho : c.Answers service user history r o) (hn : n ≤ c.maxRetries)
    (hp : ∀ i < n, (o i).Passing) (hlast : n = c.maxRetries ∨ ¬ (o n).Passing) :
    c.complete service system user history =
      (c.read r (o n), c.repeated user r o n ++ c.attempt user r) := by
  rw [complete_reaches hr ho hn hp,
    sendWith_last hr (ho n) (hlast.imp_left fun h => by omega)]

/-- The loop with its counter of 32 bits and its pause in seconds of 64 bits. There is nothing where
one of them overflows. -/
def counted (c : Client) (service : Service) (system user : String) (done : Nat)
    (history : Journal) : Option (Except ChatError String × List Event) :=
  match c.send service system user history with
  | (.ok text, events) => some (.ok text, events)
  | (.error e, events) =>
    if e.isRetryable = true ∧ done < c.maxRetries then
      if done + 1 < 2 ^ 32 ∧ 2 * (done + 1) < 2 ^ 64 then
        let seconds := 2 * (done + 1)
        let events := events ++ [.log (c.retryRecord e (done + 1)), .pause (1000 * seconds)]
        (c.counted service system user (done + 1) (history ++ events)).map fun rest =>
          (rest.1, events ++ rest.2)
      else none
    else some (.error e, events)
termination_by c.maxRetries - done

theorem requests_between (c : Client) (r : Request) (x : Exchange) (retry : Nat) :
    (c.between r x retry).filterMap Event.request? = [] := by
  unfold between
  cases c.read r x <;> rfl

theorem requests_repeated (c : Client) (user : String) (r : Request) (o : Nat → Exchange)
    (n : Nat) : (c.repeated user r o n).filterMap Event.request? = List.replicate n r := by
  induction n with
  | zero => rfl
  | succ n ih =>
    rw [repeated_succ, List.filterMap_append, List.filterMap_append, ih, requests_between,
      List.append_nil, List.replicate_succ']
    rfl

theorem complete_unsendable (hr : c.request? system user = none) (service : Service)
    (history : Journal) : c.complete service system user history =
      (.error .unsendable, [.log (c.sendingRecord user)]) := by
  have hsend : c.send service system user history =
      (.error .unsendable, [.log (c.sendingRecord user)]) := by
    unfold send
    rw [hr]
  rw [complete, sendWith, hsend]
  cases c.maxRetries <;> rfl

def scripted (history : Journal) (o : Nat → Exchange) : Service := fun journal _ =>
  o (((journal.drop history.length).filterMap Event.request?).length - 1)

theorem answers_scripted (c : Client) (user : String) (history : Journal) (r : Request)
    (o : Nat → Exchange) : c.Answers (scripted history o) user history r o := by
  intro i
  unfold scripted
  rw [List.append_assoc, List.drop_left, List.filterMap_append, requests_repeated,
    List.length_append, List.length_replicate]
  rfl

def patient : Client where
  provider := .anthropic
  model := "model"
  temperature := Decimal.zero
  maxTokens := 1
  maxRetries := 3
  baseUrl := "http://host"
  apiKey := "key"

end Client

end Chat

end Refit
