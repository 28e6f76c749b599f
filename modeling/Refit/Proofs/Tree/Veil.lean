import Mathlib.Data.List.Forall2
import Refit.Build.Check
import Refit.Proofs.Abreast
import Refit.Proofs.Tree.Shape
import Refit.Proofs.Workspace.Unseen

namespace Refit.Tree

open Refit.Path

variable {t u : Tree} {last : Bool} {here p q start : Place} {segments : List String}
  {path source target : String} {links : Nat} {bytes : ByteArray} {runnable : Bool}

/-- What may differ between two trees: at a place that is covered a file may hold `left` in the one
and `right` in the other. -/
structure Veil where
  left : ByteArray
  right : ByteArray
  covers : Place → Prop

namespace Veil

variable {α β : Type} {v : Veil} {f : Place → Entry → α} {a b : α}

/-- Two answers are the same, but for the contents of a file. -/
def Answers (v : Veil) (f : Place → Entry → α) (a b : α) : Prop :=
  b = a ∨ ∃ p runnable, a = f p (.file v.left runnable) ∧ b = f p (.file v.right runnable)

def Matches (v : Veil) (e e' : Entry) : Prop := v.Answers (fun _ e => e) e e'

theorem Answers.congr (h : v.Answers f a b) (g : α → β)
    (hg : ∀ p runnable, g (f p (.file v.left runnable)) = g (f p (.file v.right runnable))) :
    g b = g a := by
  obtain rfl | ⟨p, runnable, rfl, rfl⟩ := h
  · rfl
  · exact (hg p runnable).symm

theorem Answers.map (h : v.Answers f a b) (g : α → β) :
    v.Answers (fun p e => g (f p e)) (g a) (g b) := by
  obtain rfl | ⟨p, runnable, rfl, rfl⟩ := h
  · exact .inl rfl
  · exact .inr ⟨p, runnable, rfl, rfl⟩

theorem matches_refl (v : Veil) (e : Entry) : v.Matches e e := .inl rfl

theorem matches_file (v : Veil) (runnable : Bool) :
    v.Matches (.file v.left runnable) (.file v.right runnable) := .inr ⟨[], runnable, rfl, rfl⟩

end Veil

/-- Two listed entries stand at the same place and are the same, but for the contents of a file. -/
def Veil.Lists (v : Veil) (x y : Place × Entry) : Prop := y.1 = x.1 ∧ v.Matches x.2 y.2

/-- Two trees that differ under a veil only. -/
structure Veiled (v : Veil) (t u : Tree) : Prop where
  entries : List.Forall₂ v.Lists t.entries u.entries
  covered : ∀ p, u.get? p ≠ t.get? p → v.covers p

variable {v : Veil}

theorem entryIn_veiled {l l' : List (Place × Entry)} (h : List.Forall₂ v.Lists l l') (p : Place) :
    v.Answers (fun _ e => some e) (entryIn p l) (entryIn p l') := by
  induction h with
  | nil => exact .inl rfl
  | @cons x y l l' hxy _ ih =>
    obtain ⟨q, e⟩ := x
    obtain ⟨q', e'⟩ := y
    obtain ⟨rfl, he⟩ := hxy
    simp only [entryIn]
    split
    · exact he.map some
    · exact ih

namespace Veiled

theorem get?_cases (h : Veiled v t u) (p : Place) :
    u.get? p = t.get? p ∨ ∃ runnable, t.get? p = some (.file v.left runnable) ∧
      u.get? p = some (.file v.right runnable) := by
  unfold get?
  split
  · exact .inl rfl
  · obtain he | ⟨_, runnable, ht, hu⟩ := entryIn_veiled h.entries p
    · exact .inl he
    · exact .inr ⟨runnable, ht, hu⟩

theorem sameShape (h : Veiled v t u) : SameShape t u := by
  intro p
  obtain he | ⟨runnable, ht, hu⟩ := h.get?_cases p
  · exact .inl he
  · exact .inr ⟨⟨_, _, ht⟩, ⟨_, _, hu⟩⟩

theorem advance_veiled (h : Veiled v t u) (last : Bool) (here : Place) (segments : List String) :
    v.Answers (fun p e => .arrived (.found p e)) (advance t last here segments)
      (advance u last here segments) := by
  induction segments generalizing here with
  | nil => exact .inl rfl
  | cons s segments ih =>
    rw [advance_cons, advance_cons]
    split
    · exact ih here
    · split
      · exact ih here.dropLast
      · obtain he | ⟨runnable, ht, hu⟩ := h.get?_cases (here ++ [s])
        · rw [he]
          cases t.get? (here ++ [s]) with
          | none => exact .inl rfl
          | some entry =>
            cases entry with
            | directory => exact ih _
            | file bytes runnable => exact .inl rfl
            | link target => exact .inl rfl
        · rw [ht, hu]
          dsimp only
          split
          · exact .inr ⟨_, _, rfl, rfl⟩
          · exact .inl rfl

theorem follow_veiled (h : Veiled v t u) (last : Bool) (links : Nat) (here : Place)
    (segments : List String) :
    v.Answers (fun p e => .ok (.found p e)) (follow t last links here segments)
      (follow u last links here segments) := by
  induction links using Nat.strongRecOn generalizing here segments with
  | _ links ih =>
    rw [follow.eq_def, follow.eq_def u]
    dsimp only
    obtain he | ⟨p, runnable, ht, hu⟩ := h.advance_veiled last here segments
    · rw [he]
      cases advance t last here segments with
      | arrived spot => exact .inl rfl
      | failed error => exact .inl rfl
      | linked directory target rest =>
        cases links with
        | zero => exact .inl rfl
        | succ n =>
          dsimp only
          split
          · exact .inl rfl
          · exact ih n (Nat.lt_succ_self n) _ _
    · rw [ht, hu]
      exact .inr ⟨p, runnable, rfl, rfl⟩

theorem spotFrom_veiled (h : Veiled v t u) (last : Bool) (start : Place) (path : String) :
    v.Answers (fun p e => .ok (.found p e)) (t.spotFrom last start path)
      (u.spotFrom last start path) := by
  unfold spotFrom
  dsimp only
  split
  · exact .inl rfl
  · exact h.follow_veiled last _ _ _

theorem entryAt_veiled (h : Veiled v t u) (path : String) :
    v.Answers (fun p e => .ok (p, e)) (t.entryAt path) (u.entryAt path) :=
  (h.spotFrom_veiled false [] path).map fun r => r >>= Spot.entry

theorem canonical_eq (h : Veiled v t u) (start : Place) (path : String) :
    u.canonical start path = t.canonical start path :=
  (h.spotFrom_veiled false start path).congr (fun r => return (← (← r).entry).1) fun _ _ => rfl

theorem isFile_eq (h : Veiled v t u) (path : String) : u.isFile path = t.isFile path := by
  unfold isFile
  obtain he | ⟨p, runnable, ht, hu⟩ := h.entryAt_veiled path
  · rw [he]
  · rw [ht, hu]

theorem isDirectory_eq (h : Veiled v t u) (path : String) :
    u.isDirectory path = t.isDirectory path := by
  unfold isDirectory
  obtain he | ⟨p, runnable, ht, hu⟩ := h.entryAt_veiled path
  · rw [he]
  · rw [ht, hu]

theorem exists?_eq (h : Veiled v t u) (path : String) : u.exists? path = t.exists? path :=
  (h.entryAt_veiled path).congr (fun r => r.toOption.isSome) fun _ _ => rfl

theorem isRunnable_eq (h : Veiled v t u) (path : String) :
    Build.isRunnable u path = Build.isRunnable t path := by
  unfold Build.isRunnable
  obtain he | ⟨p, runnable, ht, hu⟩ := h.entryAt_veiled path
  · rw [he]
  · rw [ht, hu]

theorem writable_eq (h : Veiled v t u) (path : String) : u.writable path = t.writable path := by
  unfold writable spot
  obtain he | ⟨p, runnable, ht, hu⟩ := h.spotFrom_veiled false [] path
  · rw [he]
  · rw [ht, hu]
    rfl

end Veiled

namespace Veiled

theorem descent_eq (h : Veiled v t u) (here : Place) (segments : List String) :
    u.descent here segments = t.descent here segments := by
  induction segments generalizing here with
  | nil => rfl
  | cons s segments ih =>
    simp only [descent]
    split
    · exact ih here
    · split
      · exact ih here.dropLast
      · obtain he | ⟨runnable, ht, hu⟩ := h.get?_cases (here ++ [s])
        · rw [he]
          cases t.get? (here ++ [s]) with
          | none => rfl
          | some entry =>
            cases entry with
            | directory => exact congrArg _ (ih _)
            | file bytes runnable => rfl
            | link target => rfl
        · rw [ht, hu]

theorem trail_eq (h : Veiled v t u) (links : Nat) (here : Place) (segments : List String) :
    u.trail links here segments = t.trail links here segments := by
  induction links generalizing here segments with
  | zero => exact h.descent_eq here segments
  | succ links ih =>
    rw [trail, trail, h.descent_eq]
    obtain he | ⟨p, runnable, ht, hu⟩ := h.advance_veiled false here segments
    · rw [he]
      cases advance t false here segments with
      | arrived spot => rfl
      | failed error => rfl
      | linked directory target rest =>
        dsimp only
        rw [ih]
    · rw [ht, hu]

end Veiled

theorem filterMap_congr {α β : Type} {R : α → α → Prop} {f g : α → Option β} {l l' : List α}
    (h : List.Forall₂ R l l') (hf : ∀ a b, R a b → g b = f a) :
    l'.filterMap g = l.filterMap f := by
  induction h with
  | nil => rfl
  | cons hab _ ih => rw [List.filterMap_cons, List.filterMap_cons, hf _ _ hab, ih]

namespace Veiled

theorem children_veiled (h : Veiled v t u) (p : Place) :
    List.Forall₂ (fun c d => d.1 = c.1 ∧ v.Matches c.2 d.2) (t.children p) (u.children p) := by
  unfold children
  refine List.rel_filterMap ?_ h.entries
  rintro ⟨q, e⟩ ⟨q', e'⟩ ⟨hq, he⟩
  dsimp only at hq he ⊢
  subst hq
  cases q'.getLast? with
  | none => exact Option.Rel.none
  | some name =>
    dsimp only
    split
    · exact Option.Rel.some ⟨rfl, he⟩
    · exact Option.Rel.none

theorem visit_eq (h : Veiled v t u) (inside : List Open) (here : Open) (names : List String)
    {c d : String × Entry} (hc : d.1 = c.1 ∧ v.Matches c.2 d.2) :
    u.visit inside here names d = t.visit inside here names c := by
  obtain ⟨name, e⟩ := c
  obtain ⟨name', e'⟩ := d
  obtain ⟨rfl, rfl | ⟨_, runnable, rfl, rfl⟩⟩ := hc
  · cases e' with
    | directory => rfl
    | file bytes runnable => rfl
    | link target =>
      unfold visit
      dsimp only
      obtain he | ⟨p, runnable, ht, hu⟩ := h.entryAt_veiled (joinPath here.path name')
      · rw [he]
      · rw [ht, hu]
  · rfl

theorem walkDepth_eq (h : Veiled v t u) : u.walkDepth = t.walkDepth := by
  unfold walkDepth
  rw [h.entries.length_eq]

theorem putEntry_veiled {l l' : List (Place × Entry)} {e e' : Entry}
    (h : List.Forall₂ v.Lists l l') (he : v.Matches e e') :
    List.Forall₂ v.Lists (putEntry p e l) (putEntry p e' l') := by
  induction h with
  | nil => exact .cons ⟨rfl, he⟩ .nil
  | @cons x y l l' hxy hl ih =>
    obtain ⟨q, f⟩ := x
    obtain ⟨q', f'⟩ := y
    obtain ⟨rfl, hf⟩ := hxy
    simp only [putEntry]
    split
    · exact .cons ⟨rfl, he⟩ hl
    · exact .cons ⟨rfl, hf⟩ ih

theorem put (h : Veiled v t u) {e e' : Entry} (hp : p ≠ []) (he : v.Matches e e')
    (hc : e' ≠ e → v.covers p) : Veiled v (t.put p e) (u.put p e') where
  entries := putEntry_veiled h.entries he
  covered q hq := by
    rw [get?_put _ _ _ _ hp, get?_put _ _ _ _ hp] at hq
    split at hq
    · rename_i heq
      rw [heq]
      exact hc fun he => hq (congrArg some he)
    · exact h.covered q hq

theorem put_same (h : Veiled v t u) (hp : p ≠ []) (e : Entry) : Veiled v (t.put p e) (u.put p e) :=
  h.put hp (v.matches_refl e) fun hne => absurd rfl hne

theorem prune (h : Veiled v t u) (p : Place) : Veiled v (t.prune p) (u.prune p) where
  entries := by
    refine List.rel_filter ?_ h.entries
    rintro ⟨q, e⟩ ⟨q', e'⟩ ⟨rfl, -⟩
    exact Iff.rfl
  covered q hq := by
    by_cases hne : q = []
    · exact absurd (by rw [hne]; rfl) hq
    · rw [get?_prune _ _ _ hne, get?_prune _ _ _ hne] at hq
      split at hq
      · exact absurd rfl hq
      · exact h.covered q hq

theorem writable_ne_nil {path : String} {written : Place × Bool}
    (h : t.writable path = .ok written) :
    written.1 ≠ [] := (writable_eq_ok h).1.1

theorem right_eq_left {m m' : Bool} (ha : AgreeAt t u path)
    (ht : t.entryAt path = .ok (p, .file v.left m))
    (hu : u.entryAt path = .ok (q, .file v.right m')) :
    v.right = v.left := by
  have he := hu.symm.trans (Eq.trans ha ht)
  simp only [Except.ok.injEq, Prod.mk.injEq, Entry.file.injEq] at he
  exact he.2.1

theorem agreeAt_of_not_exists (h : Veiled v t u) (he : t.exists? path = false) :
    AgreeAt t u path := by
  obtain hsame | ⟨p, m, ht, -⟩ := h.entryAt_veiled path
  · exact hsame
  · unfold Tree.exists? at he
    rw [ht] at he
    cases he

theorem copy_agree {R : Tree → Tree → Prop} (h : Veiled v t u) {source : String}
    (ha : AgreeAt t u source) (target : String)
    (hput : ∀ q bytes runnable, TakesFile t q →
      R (t.put q (.file bytes runnable)) (u.put q (.file bytes runnable))) :
    Both R (t.copy source target) (u.copy source target) := by
  unfold copy
  rw [h.writable_eq, show u.entryAt source = t.entryAt source from ha]
  cases t.entryAt source with
  | error e => exact rfl
  | ok found =>
    obtain ⟨origin, entry⟩ := found
    cases entry with
    | directory => exact rfl
    | link => exact rfl
    | file bytes runnable =>
      cases hw : t.writable target with
      | error e => exact rfl
      | ok written => exact hput _ _ _ (writable_eq_ok hw).1

theorem copy_veiled (h : Veiled v t u) (hc : ∀ p, v.covers p) (source target : String) :
    Both (Veiled v) (t.copy source target) (u.copy source target) := by
  obtain he | ⟨origin, runnable, ht, hu⟩ := h.entryAt_veiled source
  · exact h.copy_agree he target fun q bytes runnable hq => h.put_same hq.1 _
  · unfold copy
    rw [h.writable_eq, ht, hu]
    cases hw : t.writable target with
    | error e => exact rfl
    | ok written =>
      refine h.put (writable_ne_nil hw) ?_ fun _ => hc _
      split
      · exact v.matches_refl _
      · exact v.matches_file runnable

theorem makeDirectory_veiled (h : Veiled v t u) (path : String) :
    Both (Veiled v) (t.makeDirectory path) (u.makeDirectory path) := by
  unfold makeDirectory
  obtain he | ⟨p, runnable, ht, hu⟩ := h.spotFrom_veiled false [] path
  · rw [show u.spot path = t.spot path from he]
    cases hs : t.spot path with
    | error e => exact rfl
    | ok spot =>
      cases spot with
      | found place entry =>
        cases entry with
        | directory => exact h
        | file => exact rfl
        | link => exact rfl
      | vacant place slashed => exact h.put_same (follow_vacant (spot_eq_ok.mp hs).2).1 _
      | slashedFile => exact rfl
  · rw [show t.spot path = _ from ht, show u.spot path = _ from hu]
    exact rfl

theorem makeEach_veiled (h : Veiled v t u) (rooted : Bool) (done rest : List String) :
    Both (Veiled v) (t.makeEach rooted done rest) (u.makeEach rooted done rest) := by
  induction rest generalizing done t u with
  | nil => exact h
  | cons s rest ih =>
    rw [makeEach, makeEach]
    exact (h.makeDirectory_veiled _).bind fun t' u' h' => ih h' _

theorem makeDirectories_veiled (h : Veiled v t u) (path : String) :
    Both (Veiled v) (t.makeDirectories path) (u.makeDirectories path) :=
  h.makeEach_veiled _ _ _

theorem removeAll_veiled (h : Veiled v t u) (path : String) :
    Both (Veiled v) (t.removeAll path) (u.removeAll path) := by
  unfold removeAll
  obtain he | ⟨p, runnable, ht, hu⟩ := h.spotFrom_veiled true [] path
  · rw [show u.spotOfLink path = t.spotOfLink path from he]
    cases t.spotOfLink path with
    | error e => exact rfl
    | ok spot =>
      cases spot with
      | found place entry =>
        cases entry with
        | directory => exact h.prune place
        | file => exact rfl
        | link => exact h.prune place
      | vacant => exact rfl
      | slashedFile => exact rfl
  · rw [show t.spotOfLink path = _ from ht, show u.spotOfLink path = _ from hu]
    exact rfl

theorem takesFile (h : Veiled v t u) (hq : TakesFile t q) : TakesFile u q := by
  obtain ⟨hne, hg⟩ := hq
  refine ⟨hne, ?_⟩
  obtain he | ⟨runnable, -, hu⟩ := h.get?_cases q
  · rwa [he]
  · exact .inr ⟨_, _, hu⟩

theorem spot_of_put {bytes' : ByteArray} {runnable' : Bool} (hq : TakesFile t q)
    (hs : (t.put q (.file bytes' runnable')).spot path = .ok (.found p (.file bytes runnable)))
    (hne : p ≠ q) : t.spot path = .ok (.found p (.file bytes runnable)) := by
  obtain ⟨spot, hbefore, hp⟩ := spot_put_place hq hs rfl
  cases spot with
  | found place entry =>
    cases hp
    have hafter : (t.put q (.file bytes' runnable')).spot path = _ :=
      spot_put_found hq hne hbefore
    rw [hs] at hafter
    cases hafter
    exact hbefore
  | vacant place slashed =>
    cases hp
    have hg := (spot_file hs).2
    rw [get?_put _ _ _ _ hq.1, if_neg hne, (follow_vacant (spot_eq_ok.mp hbefore).2).2] at hg
    cases hg
  | slashedFile => cases hp

theorem agreeAt_put (h : Veiled v t u) (hq : TakesFile t q) (bytes : ByteArray) (runnable : Bool)
    (ha : AgreeAt t u path) :
    AgreeAt (t.put q (.file bytes runnable)) (u.put q (.file bytes runnable)) path := by
  obtain he | ⟨p, m, ht, hu⟩ := (h.put_same hq.1 (.file bytes runnable)).entryAt_veiled path
  · exact he
  · have ht' := entryAt_eq_ok.mp ht
    have hu' := entryAt_eq_ok.mp hu
    have hsame : v.right = v.left := by
      by_cases hp : p = q
      · have hgt := (spot_file ht').2
        have hgu := (spot_file hu').2
        rw [hp, get?_put _ _ _ _ hq.1, if_pos rfl] at hgt hgu
        rw [hgt] at hgu
        simpa using hgu.symm
      · exact right_eq_left ha (entryAt_eq_ok.mpr (spot_of_put hq ht' hp))
          (entryAt_eq_ok.mpr (spot_of_put (h.takesFile hq) hu' hp))
    rw [hsame] at hu
    exact hu.trans ht.symm

end Veiled

/-- Two trees that differ under a veil only, and not where the paths of a set lead. -/
structure Shown (v : Veil) (P : String → Prop) (t u : Tree) : Prop where
  veiled : Veiled v t u
  agree : ∀ path, P path → AgreeAt t u path

namespace Shown

variable {P : String → Prop}

theorem put (h : Shown v P t u) (hq : TakesFile t q) (bytes : ByteArray) (runnable : Bool) :
    Shown v P (t.put q (.file bytes runnable)) (u.put q (.file bytes runnable)) where
  veiled := h.veiled.put_same hq.1 _
  agree path hp := h.veiled.agreeAt_put hq bytes runnable (h.agree path hp)

theorem write (h : Shown v P t u) (path : String) (bytes : ByteArray) :
    Both (Shown v P) (t.write path bytes) (u.write path bytes) := by
  unfold Tree.write
  rw [h.veiled.writable_eq]
  cases hw : t.writable path with
  | error e => exact rfl
  | ok written => exact h.put (writable_eq_ok hw).1 _ _

theorem copy (h : Shown v P t u) {source : String} (hs : P source) (target : String) :
    Both (Shown v P) (t.copy source target) (u.copy source target) :=
  h.veiled.copy_agree (h.agree source hs) target fun _ _ _ hq => h.put hq _ _

end Shown

end Refit.Tree
