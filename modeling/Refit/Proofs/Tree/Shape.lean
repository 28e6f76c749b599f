import Refit.Proofs.Tree.Listing

namespace Refit.Tree

variable {t u v : Tree} {last : Bool} {here p q directory : Place} {segments rest : List String}
  {path source target : String} {links : Nat} {bytes : ByteArray} {runnable : Bool}

def FileAt (t : Tree) (p : Place) : Prop := ∃ bytes runnable, t.get? p = some (.file bytes runnable)

def Holds (t : Tree) (p : Place) (bytes : ByteArray) : Prop :=
  ∃ runnable, t.get? p = some (.file bytes runnable)

/-- The same entries stand everywhere, but for what is in files. -/
def SameShape (t u : Tree) : Prop := ∀ p, u.get? p = t.get? p ∨ t.FileAt p ∧ u.FileAt p

theorem Holds.fileAt (h : t.Holds p bytes) : t.FileAt p := ⟨bytes, h⟩

theorem Holds.congr (h : t.Holds p bytes) (hg : u.get? p = t.get? p) : u.Holds p bytes := by
  obtain ⟨runnable, hp⟩ := h
  exact ⟨runnable, hg.trans hp⟩

theorem Holds.unique {bytes' : ByteArray} (h : t.Holds p bytes) (h' : t.Holds p bytes') :
    bytes = bytes' := by
  obtain ⟨_, hp⟩ := h
  obtain ⟨_, hp'⟩ := h'
  rw [hp] at hp'
  cases hp'
  rfl

theorem sameShape_refl (t : Tree) : SameShape t t := fun _ => .inl rfl

theorem SameShape.trans (h : SameShape t u) (h' : SameShape u v) : SameShape t v := by
  intro p
  obtain hu | ⟨ht, hu⟩ := h p
  · obtain hv | ⟨hu', hv⟩ := h' p
    · exact .inl (hv.trans hu)
    · obtain ⟨bytes, runnable, hg⟩ := hu'
      exact .inr ⟨⟨bytes, runnable, hu ▸ hg⟩, hv⟩
  · obtain hv | ⟨-, hv⟩ := h' p
    · obtain ⟨bytes, runnable, hg⟩ := hu
      exact .inr ⟨ht, bytes, runnable, hv.trans hg⟩
    · exact .inr ⟨ht, hv⟩

theorem SameShape.fileAt (h : SameShape t u) : u.FileAt p ↔ t.FileAt p := by
  obtain hu | ⟨ht, hu⟩ := h p
  · simp only [FileAt, hu]
  · exact ⟨fun _ => ht, fun _ => hu⟩

theorem SameShape.not_linkAt (h : SameShape t u) (ht : ¬ t.LinkAt p) : ¬ u.LinkAt p := by
  rintro ⟨target, hl⟩
  obtain hu | ⟨-, bytes, runnable, hu⟩ := h p
  · exact ht ⟨target, hu ▸ hl⟩
  · rw [hl] at hu
    cases hu

theorem SameShape.solid (h : SameShape t u) (ht : t.Solid p) : u.Solid p := by
  intro q hq
  obtain ⟨hthere, hl⟩ := ht q hq
  refine ⟨?_, h.not_linkAt hl⟩
  obtain hu | ⟨-, bytes, runnable, hu⟩ := h q
  · rwa [hu]
  · rw [hu]
    exact nofun

theorem SameShape.sound (h : SameShape t u) (ht : t.Sound) : u.Sound := by
  have hthere : ∀ p, u.get? p ≠ none → t.get? p ≠ none := by
    intro p hp
    obtain hu | ⟨⟨bytes, runnable, hg⟩, -⟩ := h p
    · rwa [← hu]
    · rw [hg]
      exact nofun
  refine ⟨fun x hx => named_of_get? ht (hthere _ (get?_of_mem_entries hx)), fun p s hp => ?_⟩
  have hd := ht.inDirectory p s (hthere _ hp)
  obtain hu | ⟨⟨_, _, hg⟩, -⟩ := h p
  · rw [hu, hd]
  · rw [hd] at hg
    cases hg

theorem advance_sameShape (h : SameShape t u)
    (ha : advance t last here segments = .arrived (.found q (.file bytes runnable))) :
    ∃ bytes runnable,
      advance u last here segments = .arrived (.found q (.file bytes runnable)) := by
  induction segments generalizing here with
  | nil => cases ha
  | cons s segments ih =>
    simp only [advance] at ha ⊢
    generalize here ++ [s] = there at ha ⊢
    have hp := h there
    simp only [FileAt] at hp
    grind

theorem advance_linked_sameShape (h : SameShape t u)
    (ha : advance t last here segments = .linked directory target rest) :
    advance u last here segments = .linked directory target rest := by
  induction segments generalizing here with
  | nil => cases ha
  | cons s segments ih =>
    simp only [advance] at ha ⊢
    generalize here ++ [s] = there at ha ⊢
    have hp := h there
    simp only [FileAt] at hp
    grind

theorem follow_sameShape (h : SameShape t u)
    (hf : follow t last links here segments = .ok (.found q (.file bytes runnable))) :
    ∃ bytes runnable,
      follow u last links here segments = .ok (.found q (.file bytes runnable)) := by
  induction links using Nat.strongRecOn generalizing here segments with
  | _ links ih =>
    obtain ha | ⟨n, directory, target, rest, rfl, ht, ha, hf⟩ := follow_eq_ok.mp hf
    · obtain ⟨bytes, runnable, ha⟩ := advance_sameShape h ha
      exact ⟨bytes, runnable, follow_eq_ok.mpr (.inl ha)⟩
    · obtain ⟨bytes, runnable, hf⟩ := ih n (Nat.lt_succ_self n) hf
      exact ⟨bytes, runnable, follow_eq_ok.mpr (.inr ⟨n, directory, target, rest, rfl, ht,
        advance_linked_sameShape h ha, hf⟩)⟩

def LeadsTo (t : Tree) (path : String) (p : Place) (bytes : ByteArray) : Prop :=
  ∃ runnable, t.spot path = .ok (.found p (.file bytes runnable))

theorem LeadsTo.holds (h : t.LeadsTo path p bytes) : t.Holds p bytes := by
  obtain ⟨runnable, hs⟩ := h
  exact ⟨runnable, (spot_file hs).2⟩

theorem LeadsTo.ne_nil (h : t.LeadsTo path p bytes) : p ≠ [] := by
  obtain ⟨runnable, hs⟩ := h
  exact (spot_file hs).1

/-- A path to a file leads to the same place in a tree of the same shape. -/
theorem LeadsTo.sameShape {bytes' : ByteArray} (h : t.LeadsTo path p bytes) (hu : SameShape t u)
    (hp : u.Holds p bytes') : u.LeadsTo path p bytes' := by
  obtain ⟨_, hs⟩ := h
  obtain ⟨hne, hf⟩ := spot_eq_ok.mp hs
  obtain ⟨bytes, runnable, hf⟩ := follow_sameShape hu hf
  have hs := spot_eq_ok.mpr ⟨hne, hf⟩
  obtain rfl : bytes = bytes' := Holds.unique ⟨runnable, (spot_file hs).2⟩ hp
  exact ⟨runnable, hs⟩

theorem leadsTo_of_holds (ht : t.Sound) (h : t.Holds p bytes) : t.LeadsTo p.text p bytes := by
  obtain ⟨runnable, hg⟩ := h
  have hthere : t.get? p ≠ none := by
    rw [hg]
    exact nofun
  refine ⟨runnable, spot_text ?_ (named_of_get? ht hthere) (fun q hq hn => ht.above hthere hq hn) hg
    nofun⟩
  rintro rfl
  cases hg

theorem LeadsTo.read (h : t.LeadsTo path p bytes) : t.read path = .ok bytes := by
  obtain ⟨_, hs⟩ := h
  exact read_of_spot hs

theorem LeadsTo.readText {text : String} (h : t.LeadsTo path p text.toUTF8) :
    t.readText path = .ok text := by
  simp only [Tree.readText, h.read, bind, Except.bind, fromUTF8?_toUTF8]
  rfl

theorem leadsTo_of_readText {text : String} (h : t.readText path = .ok text) :
    ∃ p, t.LeadsTo path p text.toUTF8 := by
  obtain ⟨p, runnable, hs⟩ := read_eq_ok (readText_eq_ok h)
  exact ⟨p, runnable, hs⟩

theorem LeadsTo.writable (h : t.LeadsTo path p bytes) :
    ∃ runnable, t.writable path = .ok (p, runnable) := by
  obtain ⟨runnable, hs⟩ := h
  exact ⟨runnable, by simp [Tree.writable, hs, bind, Except.bind, pure, Except.pure]⟩

theorem LeadsTo.write (h : t.LeadsTo path p bytes) (bytes' : ByteArray) :
    ∃ runnable, t.write path bytes' = .ok (t.put p (.file bytes' runnable)) := by
  obtain ⟨runnable, hw⟩ := h.writable
  exact ⟨runnable, by simp [Tree.write, hw, bind, Except.bind, pure, Except.pure]⟩

theorem LeadsTo.copy {bytes' : ByteArray} (hs : t.LeadsTo source p bytes)
    (ht : t.LeadsTo target q bytes') (hne : q ≠ p) :
    ∃ runnable, t.copy source target = .ok (t.put q (.file bytes runnable)) := by
  obtain ⟨runnable, hs⟩ := hs
  obtain ⟨_, hw⟩ := ht.writable
  exact ⟨runnable, by
    simp [Tree.copy, entryAt_eq_ok.mpr hs, hw, hne, bind, Except.bind, pure, Except.pure]⟩

end Refit.Tree
