import Refit.Proofs.Chat.Fence
import Refit.Proofs.Chat.Reply
import Refit.Proofs.Chat.Retries

/-!
What a client proposes. It is what is left of the text that came back last, and it does not matter
which of the services sent that text (`propose_exact`).
-/

namespace Refit.Chat

/-- What came back for the last request among some events. -/
def LastAnswer (service : Service) (history events : Journal) (x : Exchange) : Prop :=
  ∃ before r after, events = before ++ .request r :: after ∧ (∀ e ∈ after, e.request? = none) ∧
    service (history ++ (before ++ [.request r])) r = x

section LastAnswer

variable {service : Service} {history events tail : Journal} {x x' : Exchange} {r : Request}

theorem LastAnswer.append (h : LastAnswer service history events x)
    (ht : ∀ e ∈ tail, e.request? = none) : LastAnswer service history (events ++ tail) x := by
  obtain ⟨before, r, after, rfl, hafter, hx⟩ := h
  refine ⟨before, r, after ++ tail, by simp, fun e he => ?_, hx⟩
  exact (List.mem_append.mp he).elim (hafter e) (ht e)

theorem nil_of_last {e : Event} {between after after' : Journal}
    (h : e :: after = between ++ .request r :: after') (ha : ∀ e ∈ after, e.request? = none) :
    between = [] := by
  cases between with
  | nil => rfl
  | cons d between =>
    obtain ⟨-, rfl⟩ := List.cons.inj h
    have hr := ha (.request r) (List.mem_append_right between List.mem_cons_self)
    cases hr

theorem LastAnswer.unique (h : LastAnswer service history events x)
    (h' : LastAnswer service history events x') : x = x' := by
  obtain ⟨before, r, after, rfl, hafter, rfl⟩ := h
  obtain ⟨before', r', after', he, hafter', rfl⟩ := h'
  have hsame : before = before' ∧ r = r' := by
    obtain ⟨between, rfl, hb⟩ | ⟨between, rfl, hb⟩ := List.append_eq_append_iff.mp he
    · obtain rfl := nil_of_last hb hafter
      obtain ⟨hr, -⟩ := List.cons.inj hb
      exact ⟨(List.append_nil before).symm, Event.request.inj hr⟩
    · obtain rfl := nil_of_last hb hafter'
      obtain ⟨hr, -⟩ := List.cons.inj hb
      exact ⟨List.append_nil before', (Event.request.inj hr).symm⟩
  rw [hsame.1, hsame.2]

theorem not_lastAnswer (h : ∀ e ∈ events, e.request? = none) :
    ¬ LastAnswer service history events x := by
  rintro ⟨before, r, after, rfl, -, -⟩
  have hr := h (.request r) (List.mem_append_right before List.mem_cons_self)
  cases hr

end LastAnswer

/-- A success with a reply in the form of the service, and the text of the reply. -/
inductive Exchange.Carries : Provider → Exchange → String → Prop
  | blocks {status : Nat} {body : String} {v : Json.Value} {blocks : List Block}
      (success : 200 ≤ status ∧ status ≤ 299)
      (document : Json.document (contentOf status body) = some v)
      (reply : blocks? v = some blocks) :
      Carries .anthropic (.response status body) (Block.textOf blocks)
  | choices {status : Nat} {body : String} {v : Json.Value} {contents : List (Option String)}
      (success : 200 ≤ status ∧ status ≤ 299)
      (document : Json.document (contentOf status body) = some v)
      (reply : contents? v = some contents) :
      Carries .openAi (.response status body) (firstContent contents)

section Carries

variable {c : Client} {r : Request} {p : Provider} {x : Exchange} {text new : String}
  {status : Nat} {body : String}

theorem isSuccess_iff : isSuccess status = true ↔ 200 ≤ status ∧ status ≤ 299 := by
  simp only [isSuccess, Bool.and_eq_true, decide_eq_true_eq]
  omega

theorem readReply_eq_some : readReply p body = some text ↔
    ∃ v, Json.document body = some v ∧ replyText p v = some text :=
  Option.bind_eq_some_iff

theorem carries_response : (Exchange.response status body).Carries p text ↔
    isSuccess status = true ∧ readReply p (contentOf status body) = some text := by
  rw [isSuccess_iff, readReply_eq_some]
  constructor
  · intro h
    cases h with
    | blocks success document reply =>
      exact ⟨success, _, document, by rw [replyText_anthropic, reply]; rfl⟩
    | choices success document reply =>
      exact ⟨success, _, document, by rw [replyText_openAi, reply]; rfl⟩
  · rintro ⟨success, v, document, reply⟩
    cases p with
    | anthropic =>
      rw [replyText_anthropic] at reply
      obtain ⟨blocks, hb, rfl⟩ := Option.map_eq_some_iff.mp reply
      exact .blocks success document hb
    | openAi =>
      rw [replyText_openAi] at reply
      obtain ⟨contents, hc, rfl⟩ := Option.map_eq_some_iff.mp reply
      exact .choices success document hc

theorem Exchange.Carries.exists_response (h : x.Carries p text) :
    ∃ status body, x = .response status body := by
  cases h with
  | blocks => exact ⟨_, _, rfl⟩
  | choices => exact ⟨_, _, rfl⟩

theorem Exchange.Carries.unique {text' : String} (h : x.Carries p text) (h' : x.Carries p text') :
    text = text' := by
  obtain ⟨status, body, rfl⟩ := h.exists_response
  have hsame := (carries_response.mp h).2.symm.trans (carries_response.mp h').2
  exact Option.some.inj hsame

/-- What is read is a text that is not blank. -/
theorem read_eq_ok : c.read r x = .ok text ↔
    x.Carries c.provider text ∧ Text.allBlank text.toList = false := by
  cases x with
  | broken => exact ⟨nofun, fun h => nomatch h.1.exists_response⟩
  | failed fault => exact ⟨nofun, fun h => nomatch h.1.exists_response⟩
  | response status body =>
    rw [carries_response]
    unfold Client.read
    by_cases hs : isSuccess status = true
    · dsimp only
      rw [if_pos hs]
      cases hr : readReply c.provider (contentOf status body) with
      | none => exact ⟨nofun, fun h => nomatch h.1.2⟩
      | some reply =>
        dsimp only
        by_cases hb : Text.allBlank reply.toList = true
        · rw [if_pos hb]
          refine ⟨nofun, ?_⟩
          rintro ⟨⟨-, ⟨⟩⟩, hnot⟩
          rw [hb] at hnot
          cases hnot
        · rw [if_neg hb]
          constructor
          · rintro ⟨⟩
            exact ⟨⟨hs, rfl⟩, Bool.eq_false_iff.mpr hb⟩
          · rintro ⟨⟨-, ⟨⟩⟩, -⟩
            rfl
    · dsimp only
      rw [if_neg hs]
      exact ⟨nofun, fun h => absurd h.1.1 hs⟩

def remains? (text : String) : Option String :=
  if unfenced text = "" then none else some (unfenced text)

theorem remains?_eq_some : remains? text = some new ↔ unfenced text ≠ "" ∧ new = unfenced text := by
  unfold remains?
  by_cases h : unfenced text = "" <;> simp [h, eq_comm]

theorem unfenced_of_blank (h : Text.allBlank text.toList = true) : unfenced text = "" := by
  unfold unfenced
  rw [unfence_of_blank (Text.allBlank_iff.mp h)]

theorem remains_of_read : (c.read r x).toOption.bind remains? = some new ↔
    ∃ text, x.Carries c.provider text ∧ unfenced text ≠ "" ∧ new = unfenced text := by
  rw [Option.bind_eq_some_iff]
  refine exists_congr fun text => ?_
  rw [remains?_eq_some]
  refine and_congr_left fun hnew => ?_
  have hok : (c.read r x).toOption = some text ↔ c.read r x = .ok text := by
    cases c.read r x <;> simp [Except.toOption]
  rw [hok, read_eq_ok]
  refine and_iff_left ?_
  rw [← Bool.not_eq_true]
  exact fun hblank => hnew.1 (unfenced_of_blank hblank)

end Carries

namespace Client

variable {c d : Client} {service other : Service} {history past : Journal}
  {code instructions new : String} {r q : Request} {o u : Nat → Exchange} {n : Nat} {x : Exchange}

theorem exists_end (o : Nat → Exchange) (limit : Nat) :
    ∃ n, n ≤ limit ∧ (∀ i < n, (o i).Passing) ∧ (n = limit ∨ ¬ (o n).Passing) := by
  induction limit with
  | zero => exact ⟨0, Nat.le_refl 0, nofun, .inl rfl⟩
  | succ limit ih =>
    obtain ⟨n, hn, hp, rfl | hlast⟩ := ih
    · by_cases hlast : (o n).Passing
      · refine ⟨n + 1, Nat.le_refl _, fun i hi => ?_, .inl rfl⟩
        obtain hi | rfl := Nat.lt_succ_iff_lt_or_eq.mp hi
        · exact hp i hi
        · exact hlast
      · exact ⟨n, Nat.le_succ n, hp, .inr hlast⟩
    · exact ⟨n, Nat.le_succ_of_le hn, hp, .inr hlast⟩

theorem lastAnswer_repeated (ho : c.Answers service code history r o) :
    LastAnswer service history (c.repeated code r o n ++ c.attempt code r) (o n) := by
  refine ⟨c.repeated code r o n ++ [.log (c.sendingRecord code)], r, [], ?_, nofun, ?_⟩
  · rw [List.append_assoc]
    rfl
  · rw [← ho n, List.append_assoc, List.append_assoc]
    rfl

theorem propose_ends (hr : c.request? instructions code = some r)
    (ho : c.Answers service code history r o) (hn : n ≤ c.maxRetries)
    (hp : ∀ i < n, (o i).Passing) (hlast : n = c.maxRetries ∨ ¬ (o n).Passing) :
    (c.propose service history code instructions).1 =
        (c.read r (o n)).toOption.bind remains? ∧
      LastAnswer service history (c.propose service history code instructions).2 (o n) := by
  unfold propose
  rw [complete_ends hr ho hn hp hlast]
  cases c.read r (o n) with
  | ok text => exact ⟨rfl, lastAnswer_repeated ho⟩
  | error e =>
    refine ⟨rfl, (lastAnswer_repeated ho).append fun e he => ?_⟩
    rw [List.mem_singleton.mp he]
    rfl

theorem exists_lastAnswer (hr : c.request? instructions code = some r) : ∃ x,
    LastAnswer service history (c.propose service history code instructions).2 x ∧
      (c.propose service history code instructions).1 =
        (c.read r x).toOption.bind remains? := by
  obtain ⟨o, ho⟩ := exists_answers c service code history r
  obtain ⟨n, hn, hp, hlast⟩ := exists_end o c.maxRetries
  obtain ⟨hresult, hx⟩ := propose_ends hr ho hn hp hlast
  exact ⟨o n, hx, hresult⟩

theorem propose_unsendable (hr : c.request? instructions code = none) :
    c.propose service history code instructions =
      (none, [.log (c.sendingRecord code), .log (c.failedRecord .unsendable)]) := by
  unfold propose
  rw [complete_unsendable hr]
  rfl

theorem propose_eq_some : (c.propose service history code instructions).1 = some new ↔
    ∃ x text, LastAnswer service history (c.propose service history code instructions).2 x ∧
      x.Carries c.provider text ∧ unfenced text ≠ "" ∧ new = unfenced text := by
  cases hr : c.request? instructions code with
  | none =>
    rw [propose_unsendable hr]
    refine ⟨nofun, ?_⟩
    rintro ⟨x, text, hx, -⟩
    refine absurd hx (not_lastAnswer fun e he => ?_)
    obtain rfl | he := List.mem_cons.mp he
    · rfl
    · rw [List.mem_singleton.mp he]
      rfl
  | some r =>
    obtain ⟨x, hx, hresult⟩ := @exists_lastAnswer c service history code instructions r hr
    rw [hresult, remains_of_read]
    constructor
    · rintro ⟨text, hc, hnew⟩
      exact ⟨x, text, hx, hc, hnew⟩
    · rintro ⟨y, text, hy, hc, hnew⟩
      rw [← hx.unique hy] at hc
      exact ⟨text, hc, hnew⟩

theorem propose_of_last {text : String}
    (hx : LastAnswer service history (c.propose service history code instructions).2 x)
    (hc : x.Carries c.provider text) :
    (c.propose service history code instructions).1 = remains? text := by
  apply Option.ext
  intro new
  rw [propose_eq_some, remains?_eq_some]
  constructor
  · rintro ⟨x', text', hx', hc', hnew⟩
    obtain rfl := hx.unique hx'
    obtain rfl := hc.unique hc'
    exact hnew
  · intro hnew
    exact ⟨x, text, hx, hc, hnew⟩

/-- Two answers, each in the form of its service, that carry the same text or none, and that both may
pass or both do not. -/
structure Matches (c d : Client) (x y : Exchange) : Prop where
  passing : x.Passing ↔ y.Passing
  texts : ∀ text, x.Carries c.provider text ↔ y.Carries d.provider text

theorem propose_matches (hr : c.request? instructions code = some r)
    (hq : d.request? instructions code = some q) (ho : c.Answers service code history r o)
    (hu : d.Answers other code past q u) (hlimit : c.maxRetries = d.maxRetries)
    (h : ∀ i, Matches c d (o i) (u i)) :
    (c.propose service history code instructions).1 =
      (d.propose other past code instructions).1 := by
  obtain ⟨n, hn, hp, hlast⟩ := exists_end o c.maxRetries
  have hp' : ∀ i < n, (u i).Passing := fun i hi => (h i).passing.mp (hp i hi)
  have hlast' : n = d.maxRetries ∨ ¬ (u n).Passing := by
    rw [← hlimit, ← (h n).passing]
    exact hlast
  rw [(propose_ends hr ho hn hp hlast).1, (propose_ends hq hu (hlimit ▸ hn) hp' hlast').1]
  apply Option.ext
  intro new
  rw [remains_of_read, remains_of_read]
  exact exists_congr fun text => and_congr_left fun _ => (h n).texts text

/-- A client proposes what is left of the last answer if that is a success, and nothing otherwise.
What is left has no blanks around it and is a part of the text that was sent. Clients of different
services propose the same if their last answers carry the same text, and if all answers match. -/
theorem propose_exact (c : Client) (service : Service) (history : Journal)
    (code instructions : String) :
    (∀ new, (c.propose service history code instructions).1 = some new ↔
      ∃ x text, LastAnswer service history (c.propose service history code instructions).2 x ∧
        x.Carries c.provider text ∧ unfenced text ≠ "" ∧ new = unfenced text) ∧
    (∀ text, Text.Tight (unfenced text).toList ∧ (unfenced text).toList <:+: text.toList) ∧
    (∀ (d : Client) other past x y text,
      LastAnswer service history (c.propose service history code instructions).2 x →
      LastAnswer other past (d.propose other past code instructions).2 y →
      x.Carries c.provider text → y.Carries d.provider text →
      (c.propose service history code instructions).1 =
        (d.propose other past code instructions).1) ∧
    ∀ (d : Client) other past r q o u, c.request? instructions code = some r →
      d.request? instructions code = some q → c.Answers service code history r o →
      d.Answers other code past q u → c.maxRetries = d.maxRetries →
      (∀ i, Matches c d (o i) (u i)) →
      (c.propose service history code instructions).1 =
        (d.propose other past code instructions).1 := by
  refine ⟨fun new => propose_eq_some, fun text => ?_, ?_, ?_⟩
  · unfold unfenced
    rw [String.toList_ofList]
    exact ⟨unfence_tight text.toList, unfence_infix text.toList⟩
  · intro d other past x y text hx hy hc hd
    exact (propose_of_last hx hc).trans (propose_of_last hy hd).symm
  · intro d other past r q o u hr hq ho hu hlimit h
    exact propose_matches hr hq ho hu hlimit h

def eventually (body : String) : Nat → Exchange
  | 0 => .broken
  | _ => .response 200 body

def blocksBody : String :=
  "\x7b\"content\":[\x7b\"type\":\"thinking\"\x7d," ++
  "\x7b\"type\":\"text\",\"text\":\"```java\\nint a;\"\x7d," ++
  "\x7b\"type\":\"text\",\"text\":\"\\n```\"\x7d]\x7d"

def contentsBody : String :=
  "\x7b\"choices\":[\x7b\"message\":\x7b\"content\":\"```java\\nint a;\\n```\"\x7d\x7d]\x7d"

theorem propose_exact_fenced :
    let d : Client := { patient with provider := .openAi }
    (patient.propose (scripted [] (eventually blocksBody)) [] "" "").1 = some "int a;" ∧
      (patient.propose (scripted [] (eventually blocksBody)) [] "" "").1 =
        (d.propose (scripted [] (eventually contentsBody)) [] "" "").1 := by
  intro d
  have hr : (patient.request? "" "").isSome = true := by
    unfold request?
    decide +kernel
  have hq : (d.request? "" "").isSome = true := by
    unfold request?
    decide +kernel
  obtain ⟨r, hr⟩ := Option.isSome_iff_exists.mp hr
  obtain ⟨q, hq⟩ := Option.isSome_iff_exists.mp hq
  have ho := answers_scripted patient "" [] r (eventually blocksBody)
  have hu := answers_scripted d "" [] q (eventually contentsBody)
  have hc : (eventually blocksBody 1).Carries patient.provider "```java\nint a;\n```" :=
    carries_response.mpr (by decide +kernel)
  have hd : (eventually contentsBody 1).Carries d.provider "```java\nint a;\n```" :=
    carries_response.mpr (by decide +kernel)
  have hlasting (body : String) : ¬ (Exchange.response 200 body).Passing := by
    intro h
    cases h with
    | response kind => omega
  have hpassing (body : String) : ∀ i < 1, (eventually body i).Passing := by
    intro i hi
    obtain rfl : i = 0 := by omega
    exact .broken
  have hmatches (i : Nat) :
      Matches patient d (eventually blocksBody i) (eventually contentsBody i) := by
    cases i with
    | zero =>
      refine ⟨Iff.rfl, fun text => ⟨fun h => ?_, fun h => ?_⟩⟩
      · cases h.exists_response.choose_spec.choose_spec
      · cases h.exists_response.choose_spec.choose_spec
    | succ i =>
      refine ⟨iff_of_false (hlasting _) (hlasting _), fun text => ⟨fun h => ?_, fun h => ?_⟩⟩
      · rw [Exchange.Carries.unique h hc]
        exact hd
      · rw [Exchange.Carries.unique h hd]
        exact hc
  obtain ⟨hsome, -, -, hsame⟩ :=
    propose_exact patient (scripted [] (eventually blocksBody)) [] "" ""
  have hlast := (propose_ends hr ho (show 1 ≤ patient.maxRetries by decide)
    (hpassing blocksBody) (.inr (hlasting blocksBody))).2
  exact ⟨(hsome "int a;").mpr ⟨_, _, hlast, hc, by decide +kernel, by decide +kernel⟩,
    hsame d _ _ r q _ _ hr hq ho hu rfl hmatches⟩

end Client

end Refit.Chat
