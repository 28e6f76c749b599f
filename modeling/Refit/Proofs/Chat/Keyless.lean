import Refit.Chat.Client
import Refit.Proofs.Step

namespace Refit

variable {j j' : Journal}

/-- Settings with another key for the selected service. -/
def Settings.withKey (s : Settings) (key : String) : Settings :=
  match s.provider with
  | .anthropic => { s with anthropicKey := some key }
  | .openAi => { s with openAiKey := some key }

theorem Settings.apiKey_withKey (s : Settings) (key : String) :
    (s.withKey key).apiKey = some key := by
  unfold withKey apiKey
  cases s.provider <;> simp [keyOf]

theorem Settings.hasAnyKey_of_apiKey {s : Settings} {key : String} (h : s.apiKey = some key) :
    s.hasAnyKey = true := by
  unfold apiKey keyOf at h
  unfold hasAnyKey
  cases hp : s.provider <;> simp only [hp] at h <;> simp [h]

/-- The headers with the key taken out, which is sent or not as before. -/
def Chat.Headers.keyless (h : Chat.Headers) : Chat.Headers :=
  { h with apiKey := h.apiKey.map fun _ => "", authorization := h.authorization.map fun _ => "" }

def Chat.Request.keyless (r : Chat.Request) : Chat.Request :=
  { r with headers := r.headers.keyless }

def Event.keyless : Event → Event
  | .request r => .request r.keyless
  | e => e

/-- A journal without the keys in its requests. -/
def keyless (j : Journal) : Journal := j.map Event.keyless

@[simp] theorem keyless_append (j es : Journal) : keyless (j ++ es) = keyless j ++ keyless es :=
  List.map_append

theorem keyless_extend {es es' : Journal} (hj : keyless j = keyless j')
    (he : keyless es = keyless es') : keyless (j ++ es) = keyless (j' ++ es') := by
  rw [keyless_append, keyless_append, hj, he]

/-- What does not depend on the keys in the requests so far. -/
def KeyBlind {α : Type} (f : Journal → α) : Prop := ∀ j j', keyless j = keyless j' → f j = f j'

theorem keyBlind_const {α : Type} (a : α) : KeyBlind fun _ => a := fun _ _ _ => rfl

namespace Chat

variable {service : Service} {c c' : Client} {e e' : Exchange} {system user : String}

/-- A service whose answers do not depend on keys, neither on that of a request nor on those of the
requests before it. -/
def Service.IsKeyBlind (service : Service) : Prop :=
  ∀ j j' r r', keyless j = keyless j' → r.keyless = r'.keyless → service j r = service j' r'

/-- Results with events that differ in keys only. -/
def SameButKeys {α : Type} (x y : α × List Event) : Prop := x.1 = y.1 ∧ keyless x.2 = keyless y.2

namespace Client

/-- Two clients that differ in their keys, both of which can be sent. -/
structure Rekeyed (c c' : Client) : Prop where
  same : c' = { c with apiKey := c'.apiKey }
  left : isHeaderText c.apiKey = true
  right : isHeaderText c'.apiKey = true

theorem exists_rekeyed {s : Settings} {key key' : String} (hs : s.apiKey = some key)
    (hl : isHeaderText key = true) (hr : isHeaderText key' = true) :
    ∃ c c', ofSettings s = .ok c ∧ ofSettings (s.withKey key') = .ok c' ∧ c.Rekeyed c' := by
  unfold ofSettings
  rw [hs, s.apiKey_withKey]
  refine ⟨_, _, rfl, rfl, ?_, hl, hr⟩
  unfold Settings.withKey
  cases s.provider <;> rfl

theorem headers_keyless (c : Client) (key : String) :
    ({ c with apiKey := key } : Client).headers.keyless = c.headers.keyless := by
  unfold headers
  cases c.provider <;> rfl

/-- The requests differ in their keys only. -/
theorem Rekeyed.request? (h : Rekeyed c c') (system user : String) :
    (c.request? system user = none ∧ c'.request? system user = none) ∨
      ∃ r r', c.request? system user = some r ∧ c'.request? system user = some r' ∧
        r'.url = r.url ∧ r.keyless = r'.keyless := by
  obtain ⟨hs, hl, hr⟩ := h
  have hh : c'.headers.keyless = c.headers.keyless := by
    rw [hs]
    exact c.headers_keyless _
  unfold Client.request?
  rw [hl, hr, hs]
  dsimp only
  cases Url.ofText? (c.baseUrl ++ c.provider.messagesPath) with
  | none => exact .inl ⟨rfl, rfl⟩
  | some url =>
    refine .inr ⟨_, _, rfl, rfl, rfl, ?_⟩
    rw [hs] at hh
    simp only [Request.keyless, hh]
    rfl

/-- Once sent, a request has the same outcome with both keys. -/
theorem Rekeyed.send (h : Rekeyed c c') (hs : service.IsKeyBlind) (system user : String)
    (hj : keyless j = keyless j') :
    SameButKeys (c.send service system user j) (c'.send service system user j') := by
  have hsending : c'.sendingRecord user = c.sendingRecord user := by
    rw [h.same]
    rfl
  have hread : ∀ r r' x, r'.url = r.url → c'.read r' x = c.read r x := by
    intro r r' x hu
    rw [h.same]
    cases x with
    | broken => simp only [Client.read, hu]
    | failed fault => rfl
    | response status body => rfl
  unfold Client.send
  rw [hsending]
  obtain ⟨hr, hr'⟩ | ⟨r, r', hr, hr', hu, hk⟩ := h.request? system user
  · rw [hr, hr']
    exact ⟨rfl, rfl⟩
  · have hnoted : keyless [Event.log (c.sendingRecord user), .request r] =
        keyless [Event.log (c.sendingRecord user), .request r'] := by
      simp only [keyless, List.map_cons, Event.keyless, hk]
    rw [hr, hr']
    refine ⟨?_, hnoted⟩
    dsimp only
    rw [hs _ _ r r' (keyless_extend hj hnoted) hk]
    exact (hread r r' _ hu).symm

theorem Rekeyed.sendWith (h : Rekeyed c c') (hs : service.IsKeyBlind) (system user : String)
    (left retry : Nat) (hj : keyless j = keyless j') :
    SameButKeys (c.sendWith service system user left retry j)
      (c'.sendWith service system user left retry j') := by
  have hretry : ∀ e retry, c'.retryRecord e retry = c.retryRecord e retry := by
    intro e retry
    rw [h.same]
    rfl
  induction left generalizing retry j j' with
  | zero =>
    have hsent := h.send hs system user hj
    rw [Client.sendWith, Client.sendWith]
    generalize c.send service system user j = x at hsent ⊢
    generalize c'.send service system user j' = y at hsent ⊢
    obtain ⟨result, events⟩ := x
    obtain ⟨_, events'⟩ := y
    obtain ⟨rfl, he⟩ := hsent
    cases result <;> exact ⟨rfl, he⟩
  | succ left ih =>
    have hsent := h.send hs system user hj
    rw [Client.sendWith, Client.sendWith]
    generalize c.send service system user j = x at hsent ⊢
    generalize c'.send service system user j' = y at hsent ⊢
    obtain ⟨result, events⟩ := x
    obtain ⟨_, events'⟩ := y
    obtain ⟨rfl, he⟩ := hsent
    cases result with
    | ok text => exact ⟨rfl, he⟩
    | error e =>
      dsimp only at he ⊢
      split
      · rw [hretry]
        have hnoted :
            keyless (events ++ [.log (c.retryRecord e retry), .pause (pauseBefore retry)]) =
            keyless (events' ++ [.log (c.retryRecord e retry), .pause (pauseBefore retry)]) :=
          keyless_extend he rfl
        obtain ⟨hresult, hmore⟩ := ih (retry + 1) (keyless_extend hj hnoted)
        exact ⟨hresult, keyless_extend hnoted hmore⟩
      · exact ⟨rfl, he⟩

/-- Two clients that differ in their key propose the same, with the same requests but for the header
with the key, and with the same log records. -/
theorem Rekeyed.propose (h : Rekeyed c c') (hs : service.IsKeyBlind) (code instructions : String)
    (hj : keyless j = keyless j') :
    SameButKeys (c.propose service j code instructions)
      (c'.propose service j' code instructions) := by
  have hfailed : ∀ e, c'.failedRecord e = c.failedRecord e := by
    intro e
    rw [h.same]
    rfl
  have hretries : c'.maxRetries = c.maxRetries := by rw [h.same]
  have hsent := h.sendWith hs instructions code c.maxRetries 1 hj
  unfold Client.propose Client.complete
  rw [hretries]
  generalize c.sendWith service instructions code c.maxRetries 1 j = x at hsent ⊢
  generalize c'.sendWith service instructions code c.maxRetries 1 j' = y at hsent ⊢
  obtain ⟨result, events⟩ := x
  obtain ⟨_, events'⟩ := y
  obtain ⟨rfl, he⟩ := hsent
  cases result with
  | ok reply => exact ⟨rfl, he⟩
  | error e =>
    dsimp only at he ⊢
    rw [hfailed]
    exact ⟨rfl, keyless_extend he rfl⟩

end Client

end Chat

end Refit
