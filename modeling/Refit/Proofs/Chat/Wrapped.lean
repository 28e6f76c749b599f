import Refit.Proofs.Chat.Proposal

/-!
Replies that stand in one code fence. Behind an info line the body of the reply is left
(`unfenced_body`); without one the fence before it is left, too, and gets into the proposal
(`unfenced_wrapped`).
-/

namespace Refit.Chat

open Text

variable {before after body info reply : String}

def fenced (before text after : String) : String := before ++ "```" ++ text ++ "```" ++ after

theorem toList_fenced (before text after : String) : (fenced before text after).toList =
    before.toList ++ (fence ++ (text.toList ++ fence) ++ after.toList) := by
  simp [fenced, fence]

theorem unfenced_info (hb : Blank before.toList) (ha : Blank after.toList)
    (hi : '\n' ∉ info.toList) (body : String) :
    unfenced (fenced before (info ++ "\n" ++ body) after) = trimmed body := by
  have hinner : (info ++ "\n" ++ body).toList = info.toList ++ '\n' :: body.toList := by simp
  rw [unfenced, toList_fenced, hinner, unfence_feed hb ha hi, trimmed]

theorem unfenced_bare (h : ¬ fence <+: trim reply.toList) : unfenced reply = trimmed reply := by
  rw [unfenced, unfence, trimmed]
  exact congrArg String.ofList (if_neg (mt List.isPrefixOf_iff_prefix.mp h))

/-- Of a reply in a fence with an info line the body is left, whatever it holds, and of a reply that
does not begin with a fence all is left but the blanks around it. -/
theorem unfenced_body :
    (∀ info body before after : String, '\n' ∉ info.toList → Blank before.toList →
      Blank after.toList →
      unfenced (fenced before (info ++ "\n" ++ body) after) = trimmed body) ∧
    ∀ reply : String, ¬ fence <+: trim reply.toList → unfenced reply = trimmed reply :=
  ⟨fun _ body _ _ hi hb ha => unfenced_info hb ha hi body, fun _ h => unfenced_bare h⟩

theorem unfenced_body_nested :
    unfenced (fenced "\u3000\n" ("java" ++ "\n" ++ "\r\n{}\n```\r\n``") "\u00a0") = "{}\n```\r\n``" ∧
      unfenced "\u0085``{}``\n" = "``{}``" := by
  obtain ⟨hbody, hbare⟩ := unfenced_body
  have hb : Blank "\u3000\n".toList := allBlank_iff.mp (by decide)
  have ha : Blank "\u00a0".toList := allBlank_iff.mp (by decide)
  have hno : ¬ fence <+: trim "\u0085``{}``\n".toList := by decide
  rw [hbody "java" "\r\n{}\n```\r\n``" "\u3000\n" "\u00a0" (by decide) hb ha, hbare _ hno]
  exact ⟨by decide, by decide⟩

theorem mark_mem_unfenced (hb : Blank before.toList) (ha : Blank after.toList)
    (hbody : '`' ∉ body.toList) :
    '`' ∈ (unfenced (fenced before body after)).toList ↔ '\n' ∉ body.toList := by
  rw [unfenced, String.toList_ofList, toList_fenced]
  constructor
  · -- behind the first line end all is part of the body
    intro hmark hfeed
    obtain ⟨line, rest, hsplit, hline⟩ := List.eq_append_cons_of_mem hfeed
    rw [hsplit, unfence_feed hb ha hline] at hmark
    refine hbody ?_
    rw [hsplit]
    exact List.mem_append_right line (List.mem_cons_of_mem _ ((trim_isInfix rest).subset hmark))
  · intro hline
    rw [unfence_line hb ha hline]
    exact List.mem_append_left _ List.mem_cons_self

/-- Of a reply in one fence, with no backtick in it, a backtick is left just where all of it is one
line. What is left then is the fence before it and what stands behind that, also in a proposal. -/
theorem unfenced_wrapped (body before after : String) (hbody : '`' ∉ body.toList)
    (hb : Blank before.toList) (ha : Blank after.toList) :
    ('`' ∈ (unfenced (fenced before body after)).toList ↔ '\n' ∉ body.toList) ∧
    ('\n' ∉ body.toList →
      (unfenced (fenced before body after)).toList = fence ++ trimEnd body.toList) ∧
    ∀ (c : Client) service history code instructions x,
      LastAnswer service history (c.propose service history code instructions).2 x →
      x.Carries c.provider (fenced before body after) →
      ((∃ new, (c.propose service history code instructions).1 = some new ∧ '`' ∈ new.toList) ↔
        '\n' ∉ body.toList) := by
  have hmark := mark_mem_unfenced hb ha hbody
  refine ⟨hmark, fun hline => ?_, ?_⟩
  · rw [unfenced, String.toList_ofList, toList_fenced, unfence_line hb ha hline]
  · intro c service history code instructions x hx hc
    rw [Client.propose_of_last hx hc, ← hmark]
    constructor
    · rintro ⟨new, hnew, hm⟩
      obtain ⟨-, rfl⟩ := remains?_eq_some.mp hnew
      exact hm
    · intro hm
      refine ⟨_, remains?_eq_some.mpr ⟨?_, rfl⟩, hm⟩
      intro hempty
      rw [hempty] at hm
      cases hm

theorem unfenced_wrapped_lines :
    '`' ∉ (unfenced (fenced "\u3000" "java\nint a;\n" "\n")).toList ∧
      ¬ ∃ new, (Client.patient.propose (fun _ _ => .response 200 Client.blocksBody) [] "" "").1 =
        some new ∧ '`' ∈ new.toList := by
  have hr : (Client.patient.request? "" "").isSome = true := by
    unfold Client.request?
    decide +kernel
  obtain ⟨r, hr⟩ := Option.isSome_iff_exists.mp hr
  obtain ⟨x, hx, -⟩ := @Client.exists_lastAnswer Client.patient
    (fun _ _ => .response 200 Client.blocksBody) [] "" "" r hr
  have hsent : x = .response 200 Client.blocksBody := by
    obtain ⟨_, _, _, -, -, rfl⟩ := hx
    rfl
  have hc : x.Carries Client.patient.provider (fenced "" "java\nint a;\n" "") := by
    rw [hsent]
    exact carries_response.mpr (by decide +kernel)
  have hbody : '`' ∉ "java\nint a;\n".toList := by decide
  have hno : Blank "".toList := nofun
  have hpadding : Blank "\u3000".toList ∧ Blank "\n".toList :=
    ⟨allBlank_iff.mp (by decide), allBlank_iff.mp (by decide)⟩
  obtain ⟨hmark, -, -⟩ :=
    unfenced_wrapped "java\nint a;\n" "\u3000" "\n" hbody hpadding.1 hpadding.2
  obtain ⟨-, -, hproposal⟩ := unfenced_wrapped "java\nint a;\n" "" "" hbody hno hno
  have hfeed : ¬ '\n' ∉ "java\nint a;\n".toList := by decide
  exact ⟨mt hmark.mp hfeed, mt (hproposal Client.patient _ [] "" "" x hx hc).mp hfeed⟩

/-- Of a fence on one line the first half stays. -/
theorem unfenced_line : ¬ ∀ body before after : String, '`' ∉ body.toList →
    Blank before.toList → Blank after.toList →
    '`' ∉ (unfenced (fenced before body after)).toList := by
  intro h
  have hb : Blank "".toList := nofun
  exact h " void init() {} " "" "" (by decide) hb hb (by decide)

end Refit.Chat
