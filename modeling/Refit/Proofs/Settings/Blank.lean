import Refit.Chat.Client
import Refit.Proofs.Settings.Merge

/-!
Blank settings. A variable of blanks says nothing, but the file may give blanks for the address and
the keys, and nothing checks them: they stay where the environment gives nothing instead, and then
a blank key counts as a key (`load_blank`, `load_blankKey`).
-/

namespace Refit.Settings

open Chat (Client Provider)
open Text

variable {t : Tree} {env : Environment} {file s : Settings} {root name : String} {p : Provider}
  {ofFile value : Option String} {c : Client}

def IsBlank (value : Option String) : Prop := ∃ text ∈ value, Blank text.toList

def IsUsable (value : Option String) : Prop := ∃ text ∈ value, ¬ Blank text.toList

/-- What a setting comes to over that of the file. -/
structure Fills (env : Environment) (name : String) (ofFile value : Option String) : Prop where
  blank : IsBlank value ↔ IsBlank ofFile ∧ ∀ text, ¬ Given env name text
  usable : IsUsable value ↔ IsUsable ofFile ∨ ∃ text, Given env name text

theorem Takes.fills (h : Takes env name (fun text value => value = some text) ofFile value) :
    Fills env name ofFile value := by
  obtain ⟨text, hgiven, rfl⟩ | ⟨hno, rfl⟩ := h
  · constructor
    · simp only [IsBlank, Option.mem_some_iff, exists_eq_left', hgiven.2, false_iff, not_and]
      exact fun _ hno => hno text hgiven
    · simp only [IsUsable, Option.mem_some_iff, exists_eq_left', hgiven.2, not_false_eq_true,
        true_iff]
      exact .inr ⟨text, hgiven⟩
  · constructor
    · exact (and_iff_left hno).symm
    · exact (or_iff_left (not_exists.mpr hno)).symm

theorem Merged.key (h : Merged env file s) (p : Provider) :
    Fills env p.keyVariable (file.keyOf p) (s.keyOf p) := by
  cases p with
  | anthropic => exact h.anthropicKey.fills
  | openAi => exact h.openAiKey.fills

def blankKeyTree : Tree :=
  ⟨[(["p"], .directory),
    (["p", "modernizer.toml"],
      .file "[llm]\nanthropic_api_key = \"  \"\n".toUTF8 false)]⟩

/-- The blanks of the file are a key: there is one, and the client takes it. -/
theorem load_blankKey : ∃ s c, load blankKeyTree "/p" (fun _ => none) = .ok s ∧
    IsBlank s.anthropicKey ∧ s.hasAnyKey = true ∧ (∀ p, ¬ IsUsable (s.keyOf p)) ∧
    Client.ofSettings s = .ok c ∧ Blank c.apiKey.toList := by
  have hblank : Blank "  ".toList := allBlank_iff.mp (by decide)
  refine ⟨{ anthropicKey := some "  " }, _, by decide +kernel, ⟨_, rfl, hblank⟩, rfl, fun p => ?_,
    rfl, hblank⟩
  rintro ⟨text, htext, hno⟩
  cases p <;> cases htext
  exact hno hblank

end Refit.Settings
