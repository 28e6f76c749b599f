import Refit.Proofs.Step
import Refit.Proofs.Tree.Change
import Refit.Workspace

namespace Refit.Workspace

open Refit.Path Refit.Tree

variable {t u u' : Tree} {r p : Place} {v : Visit} {ws : Workspace} {path : String}

/-- The place of the sandbox of a project. -/
def sandbox (r : Place) : Place := r ++ [directoryName]

def ofPlace (r : Place) : Workspace := ⟨r.text, (sandbox r).text⟩

theorem isName_directoryName : IsName directoryName := ⟨by decide, by decide, by decide⟩

theorem named_sandbox (hr : ∀ s ∈ r, IsName s) : ∀ s ∈ sandbox r, IsName s := by
  intro s hs
  obtain hs | hs := List.mem_append.mp hs
  · exact hr s hs
  · rw [List.mem_singleton.mp hs]
    exact isName_directoryName

theorem sandbox_ne_nil (r : Place) : sandbox r ≠ [] := by simp [sandbox]

/-- What stands above the sandbox is a project root or above one. -/
theorem prefix_sandbox (h : p <+: sandbox r) (hn : p ≠ sandbox r) : p <+: r :=
  (List.prefix_concat_iff.mp h).resolve_left hn

theorem sandbox_not_above (h : p <+: r) : ¬ sandbox r <+: p := by
  intro hs
  have hl := (hs.trans h).length_le
  rw [sandbox, List.length_append, List.length_singleton] at hl
  omega

theorem forProject_eq_ok (h : forProject t path = .ok ws) :
    ∃ r, t.canonical [] path = .ok r ∧ (∀ s ∈ r, IsName s) ∧ t.Solid r ∧ ws = ofPlace r := by
  unfold forProject at h
  split at h
  · rename_i r hc
    have hr := canonical_passed t.passed_names (fun _ hs => absurd hs List.not_mem_nil) hc
    refine ⟨r, hc, hr, canonical_passed t.passed_solid t.solid_nil hc, ?_⟩
    have hj := @joinPath_text [directoryName] r hr (by simp) (by simpa using isName_directoryName)
    rw [mk_single_text] at hj
    cases h
    rw [hj]
    rfl
  · cases h

/-- Nothing differs but below a place. -/
def AlikeOutside (directory : Place) (t u : Tree) : Prop :=
  ∀ p, ¬ directory <+: p → u.get? p = t.get? p

theorem AlikeOutside.linkAt_iff (h : AlikeOutside (sandbox r) t u) (hp : ¬ sandbox r <+: p) :
    u.LinkAt p ↔ t.LinkAt p := by
  simp only [LinkAt, h p hp]

theorem AlikeOutside.put {directory : Place} {entry : Entry} (h : AlikeOutside directory t u)
    (hne : p ≠ []) (hp : directory <+: p) : AlikeOutside directory t (u.put p entry) := by
  intro q hq
  rw [get?_put _ _ _ _ hne, if_neg (by rintro rfl; exact hq hp)]
  exact h q hq

theorem AlikeOutside.prune (h : AlikeOutside (sandbox r) t u) :
    AlikeOutside (sandbox r) t (u.prune (sandbox r)) := by
  intro q hq
  by_cases hne : q = []
  · subst hne
    rfl
  · rw [get?_prune _ _ _ hne, if_neg hq]
    exact h q hq

/-- A sandbox in the making: nothing else has changed, and no link stands in it. -/
structure Fresh (t : Tree) (r : Place) (u : Tree) : Prop where
  outside : AlikeOutside (sandbox r) t u
  linkFree : ∀ p, sandbox r <+: p → ¬ u.LinkAt p
  named : ∀ x ∈ u.entries, ∀ s ∈ x.1, IsName s

theorem Fresh.put {entry : Entry} (h : Fresh t r u) (hp : sandbox r <+: p)
    (hn : ∀ s ∈ p, IsName s) (he : ∀ target, entry ≠ .link target) : Fresh t r (u.put p entry) where
  outside := h.outside.put (fun hp' => sandbox_ne_nil r (List.prefix_nil.mp (hp' ▸ hp))) hp
  linkFree q hq := by
    have hne : p ≠ [] := fun hp' => sandbox_ne_nil r (List.prefix_nil.mp (hp' ▸ hp))
    rintro ⟨target, hl⟩
    rw [get?_put _ _ _ _ hne] at hl
    split at hl
    · exact he target (Option.some.inj hl)
    · exact h.linkFree q hq ⟨target, hl⟩
  named := named_put h.named hn

/-- No link stands on the way into the sandbox. -/
theorem Fresh.unlinked (h : Fresh t r u) (hr : t.Solid r) : u.Unlinked (sandbox r) := by
  intro p hp
  by_cases hs : sandbox r <+: p
  · exact h.linkFree p hs
  · rw [h.outside.linkAt_iff hs]
    have hp := hp.resolve_right hs
    exact (hr p (prefix_sandbox hp fun he => hs (he ▸ List.prefix_refl _))).2

theorem run_cleanup (ws : Workspace) (w : World) :
    ws.cleanup.run w =
      match w.tree.removeAll ws.root with
      | .ok t =>
        (.ok (), { w with tree := t }.log (.debug .workspace ("Removed workspace " ++ ws.root)))
      | .error .notFound => (.ok (), w)
      | .error cause => (.error (.file ws.root cause), w) := by
  unfold cleanup
  rw [Step.run_bind]
  change (match w.tree.removeAll ws.root with
    | .ok t => _
    | .error .notFound => _
    | .error cause => _ : Action Unit).run w = _
  split <;> rfl

theorem cleanup_leads {P : World → Prop} (hr : ∀ s ∈ r, IsName s)
    (hl : ∀ w, P w → ∀ p, p <+: r → ¬ w.tree.LinkAt p) {Q : World → Prop}
    (hprune : ∀ w, P w →
      Q ({ w with tree := w.tree.prune (sandbox r) }.log
        (.debug .workspace ("Removed workspace " ++ (ofPlace r).root))))
    (hnone : ∀ w, P w → w.tree.removeAll (ofPlace r).root = .error .notFound → Q w) :
    Step.Leads P (ofPlace r).cleanup (fun _ => Q) fun _ => P := by
  refine ⟨fun w hw => ?_⟩
  rw [run_cleanup]
  split
  · rename_i t' ht
    have hp := removeAll_eq_ok (sandbox_ne_nil r) (named_sandbox hr)
      (fun p hp hn => hl w hw p (prefix_sandbox hp hn)) ht
    rw [hp]
    exact hprune w hw
  · exact hnone w hw ‹_›
  · exact hw

structure Below (r : Place) (v : Visit) : Prop where
  spells : Spells v.path (r ++ v.names)
  named : ∀ s ∈ v.names, IsName s
  ne_nil : v.names ≠ []
  unsandboxed : ∀ rest, v.names = directoryName :: rest → rest = [] ∧ v.isDirectory = false

theorem isName_of_mem_children (ht : ∀ x ∈ t.entries, ∀ s ∈ x.1, IsName s) {child : String × Entry}
    (h : child ∈ t.children p) : IsName child.1 := by
  obtain ⟨⟨q, e⟩, hq, hc⟩ := List.mem_filterMap.mp h
  dsimp only at hc
  split at hc
  · cases hc
  · rename_i name hn
    split at hc
    · cases hc
      exact ht _ hq _ (List.mem_of_getLast? hn)
    · cases hc

theorem visit_eq_ok {inside : List Open} {here : Open} {names : List String}
    {child : String × Entry} (h : t.visit inside here names child = .ok v) :
    v.path = joinPath here.path child.1 ∧ v.names = names ++ [child.1] := by
  obtain ⟨name, entry⟩ := child
  cases entry with
  | directory =>
    cases h
    exact ⟨rfl, rfl⟩
  | file bytes runnable =>
    cases h
    exact ⟨rfl, rfl⟩
  | link target =>
    simp only [visit] at h
    split at h
    · cases h
    · split at h
      · cases h
      · cases h
        exact ⟨rfl, rfl⟩
    · cases h
      exact ⟨rfl, rfl⟩

structure Entered (r : Place) (here : Open) (names : Place) : Prop where
  spells : Spells here.path (r ++ names)
  named : ∀ s ∈ names, IsName s
  unsandboxed : names.head? ≠ some directoryName

theorem entered_root (hr : ∀ s ∈ r, IsName s) (place : Place) : Entered r ⟨r.text, place⟩ [] :=
  ⟨by simpa using spells_text hr, nofun, nofun⟩

theorem Entered.below {inside : List Open} {here : Open} {names : List String}
    {child : String × Entry} (h : Entered r here names)
    (hv : t.visit inside here names child = .ok v) (hc : IsName child.1)
    (hx : v.isDirectory = true → isExcluded child.1 = false) : Below r v := by
  obtain ⟨hp, hv⟩ := visit_eq_ok hv
  refine ⟨?_, ?_, by simp [hv], ?_⟩
  · rw [hp, hv, ← List.append_assoc]
    exact h.spells.joinName hc
  · intro s hm
    rw [hv] at hm
    obtain hm | hm := List.mem_append.mp hm
    · exact h.named s hm
    · rwa [List.mem_singleton.mp hm]
  · intro rest hr
    rw [hv] at hr
    cases names with
    | nil =>
      obtain ⟨hc, hr⟩ := List.cons.inj hr
      refine ⟨hr.symm, ?_⟩
      rw [← Bool.not_eq_true]
      intro hd
      have hx := hx hd
      rw [hc] at hx
      exact absurd hx (by decide)
    | cons a names => exact absurd (congrArg some (List.cons.inj hr).1) h.unsandboxed

theorem Below.entered (h : Below r v) (hd : v.isDirectory = true) :
    Entered r ⟨v.path, v.place⟩ v.names := by
  refine ⟨h.spells, h.named, fun hh => ?_⟩
  obtain ⟨rest, hr⟩ := List.head?_eq_some_iff.mp hh
  have hf := (h.unsandboxed rest hr).2
  rw [hd] at hf
  cases hf

theorem Below.target (h : Below r v) (hr : ∀ s ∈ r, IsName s) :
    Spells (joinPath (ofPlace r).root (Path.mk false v.names).text) (sandbox r ++ v.names) :=
  (spells_text (named_sandbox hr)).joinNames h.named

/-- What holds of a tree while entries are copied. -/
structure Copying (t : Tree) (r : Place) (I : Tree → Prop) : Prop where
  fresh : ∀ u, I u → Fresh t r u
  directory : ∀ u p, I u → sandbox r <+: p → (∀ s ∈ p, IsName s) → u.get? p = none →
    I (u.put p .directory)
  file : ∀ u v origin bytes runnable, I u → Below r v →
    u.spot v.path = .ok (.found origin (.file bytes runnable)) →
    TakesFile u (sandbox r ++ v.names) →
    I (u.put (sandbox r ++ v.names)
      (.file (if sandbox r ++ v.names = origin then ByteArray.empty else bytes) runnable))

theorem named_append {q : Place} (hr : ∀ s ∈ r, IsName s) (hq : ∀ s ∈ q, IsName s) :
    ∀ s ∈ r ++ q, IsName s := by
  intro s hs
  obtain hs | hs := List.mem_append.mp hs
  · exact hr s hs
  · exact hq s hs

theorem makeDirectories_copying {I : Tree → Prop} (hI : Copying t r I) (hr : t.Solid r) {q : Place}
    (hq : ∀ s ∈ sandbox r ++ q, IsName s) (hs : Spells path (sandbox r ++ q))
    (h : u.makeDirectories path = .ok u') (hi : I u) : I u' := by
  refine makeDirectories_keeps hs (fun u hu p hp => ((hI.fresh u hu).unlinked hr).not_linkAt hp)
    ?_ h hi
  intro u p hu hp hne hg
  have hsp : sandbox r <+: p := by
    refine Classical.byContradiction fun hn => ?_
    have hp' :=
      (List.prefix_or_prefix_of_prefix hp (List.prefix_append (sandbox r) q)).resolve_right hn
    rw [(hI.fresh u hu).outside p hn] at hg
    exact (hr p (prefix_sandbox hp' fun he => hn (he ▸ List.prefix_refl _))).1 hg
  exact hI.directory u p hu hsp (fun s hs => hq s (hp.subset hs)) hg

theorem copyBelow_kept {K : {α : Type} → Action α → Prop}
    (hpure : ∀ {α : Type} (a : α), K (pure a)) (hfail : ∀ {α : Type} (e : Failure), K (α := α) (Step.fail e))
    (htree : K Step.tree)
    (hbind : ∀ {α β : Type} {x : Action α} {f : α → Action β}, K x → (∀ a, K (f a)) → K (x >>= f))
    (hentry : ∀ v, K (ws.copyEntry v)) {depth : Nat} {outside : List Open} {here : Open}
    {names : List String} : K (ws.copyBelow depth outside here names) := by
  have hmet : ∀ {enter : Visit → Action Nat}, (∀ v, K (enter v)) → ∀ name met,
      K (ws.copyMet enter name met) := by
    intro enter henter name met
    cases met with
    | error cause => exact hfail _
    | ok v =>
      unfold copyMet
      dsimp only
      split
      · split
        · exact hpure _
        · exact hbind (hentry v) fun _ => hbind (henter v) fun _ => hpure _
      · exact hentry v
  have hlisted : ∀ {enter : Visit → Action Nat}, (∀ v, K (enter v)) → ∀ inside here names children,
      K (ws.copyListed enter inside here names children) := by
    intro enter henter inside here names children
    induction children with
    | nil => exact hpure 0
    | cons child children ih =>
      exact hbind htree fun t => hbind (hmet henter _ _) fun _ => hbind ih fun _ => hpure _
  induction depth generalizing outside here names with
  | zero => exact hfail _
  | succ depth ih => exact hbind htree fun t => hlisted (fun v => ih) _ _ _ _

theorem copyEntry_leads {I : Tree → Prop} (hI : Copying t r I) (ht : t.Solid r)
    (hr : ∀ s ∈ r, IsName s) (hv : Below r v) :
    Step.Leads (fun w => I w.tree) ((ofPlace r).copyEntry v) (fun _ w => I w.tree)
      fun _ w => I w.tree := by
  unfold copyEntry
  split
  · refine Step.Leads.bind (Step.leads_change (Q := fun _ w => I w.tree) ?_ ?_) fun _ =>
      Step.leads_pure fun _ hw => hw
    · intro u w hu hw
      exact makeDirectories_copying hI ht (named_append (named_sandbox hr) hv.named) (hv.target hr)
        hu hw
    · exact fun _ _ _ hw => hw
  · refine Step.Leads.bind (Step.leads_change (Q := fun _ w => I w.tree) ?_ ?_) fun _ =>
      Step.leads_pure fun _ hw => hw
    · intro u w hu hw
      obtain ⟨origin, bytes, runnable, q, old, hs, hq, rfl⟩ := copy_eq_ok hu
      obtain ⟨rfl, htakes⟩ := writable_straight (hv.target hr)
        (fun p hp => ((hI.fresh _ hw).unlinked ht).not_linkAt hp) hq
      exact hI.file w.tree v origin bytes runnable hw hv hs htakes
    · exact fun _ _ _ hw => hw

theorem copyListed_leads {I : Tree → Prop} (hI : Copying t r I) (ht : t.Solid r)
    (hr : ∀ s ∈ r, IsName s) {inside : List Open} {here : Open} {names : List String}
    (he : Entered r here names) {enter : Visit → Action Nat}
    (henter : ∀ v, Below r v → v.isDirectory = true →
      Step.Leads (fun w => I w.tree) (enter v) (fun _ w => I w.tree) fun _ w => I w.tree)
    {children : List (String × Entry)} (hc : ∀ child ∈ children, IsName child.1) :
    Step.Leads (fun w => I w.tree) ((ofPlace r).copyListed enter inside here names children)
      (fun _ w => I w.tree) fun _ w => I w.tree := by
  induction children with
  | nil => exact Step.leads_pure fun _ hw => hw
  | cons child children ih =>
    refine Step.Leads.bind (Step.leads_tree (Q := fun _ w => I w.tree) fun _ h => h) fun u => ?_
    refine Step.Leads.bind (Q := fun _ w => I w.tree) ?_ fun n =>
      (ih fun c hm => hc c (List.mem_cons_of_mem _ hm)).bind fun _ => Step.leads_pure fun _ hw => hw
    have hname := hc child List.mem_cons_self
    cases hv : u.visit inside here names child with
    | error cause => exact Step.leads_fail fun _ hw => hw
    | ok v =>
      unfold copyMet
      dsimp only
      split
      · rename_i hd
        split
        · exact Step.leads_pure fun _ hw => hw
        · rename_i hx
          have hb := he.below hv hname fun _ => by simpa using hx
          exact (copyEntry_leads hI ht hr hb).bind fun _ => (henter v hb hd).bind fun _ =>
            Step.leads_pure fun _ hw => hw
      · rename_i hd
        exact copyEntry_leads hI ht hr (he.below hv hname fun hd' => absurd hd' hd)

theorem copyBelow_leads {I : Tree → Prop} (hI : Copying t r I) (ht : t.Solid r)
    (hr : ∀ s ∈ r, IsName s) {depth : Nat} {outside : List Open} {here : Open}
    {names : List String} (he : Entered r here names) :
    Step.Leads (fun w => I w.tree) ((ofPlace r).copyBelow depth outside here names)
      (fun _ w => I w.tree) fun _ w => I w.tree := by
  induction depth generalizing outside here names with
  | zero => exact Step.leads_fail fun _ hw => hw
  | succ depth ih =>
    refine Step.Leads.bind (Step.leads_tree (Q := fun u w => I u ∧ I w.tree) fun _ h => ⟨h, h⟩)
      fun u => Step.leads_assume fun hu => ?_
    exact copyListed_leads hI ht hr he (fun v hb hd => ih (hb.entered hd)) fun child hc =>
      isName_of_mem_children (hI.fresh u hu).named hc

/-- What holds of a tree in which a workspace is made: it does when the sandbox is cleared, and
while entries are copied. -/
structure Made (t : Tree) (r : Place) (I : Tree → Prop) : Prop where
  copying : Copying t r I
  cleared : ∀ u, AlikeOutside (sandbox r) t u → (∀ x ∈ u.entries, ∀ s ∈ x.1, IsName s) →
    (∀ p, sandbox r <+: p → u.get? p = none) → I u

theorem fresh_made (t : Tree) (hr : ∀ s ∈ r, IsName s) : Made t r (Fresh t r) where
  copying := {
    fresh := fun _ h => h
    directory := fun _ _ h hp hn _ => h.put hp hn nofun
    file := fun _ _ _ _ _ h hv _ _ => h.put (List.prefix_append _ _)
      (named_append (named_sandbox hr) hv.named) nofun }
  cleared u ho hn hg := by
    refine ⟨ho, fun p hp => ?_, hn⟩
    rintro ⟨target, hl⟩
    rw [hg p hp] at hl
    cases hl

/-- A workspace that is made is what copying makes of a cleared sandbox; one that is not made has
left the tree alone or is such a copy so far. -/
theorem create_leads {I : Tree → Prop} (hI : Made t r I) (ht : t.Sound) (hs : t.Solid r)
    (hr : ∀ s ∈ r, IsName s) :
    Step.Leads (fun w => w.tree = t) (ofPlace r).create (fun _ w => I w.tree)
      fun _ w => w.tree = t ∨ I w.tree := by
  have hcleanup : Step.Leads (fun w => w.tree = t) (ofPlace r).cleanup (fun _ w => I w.tree)
      fun _ w => w.tree = t := by
    refine cleanup_leads hr ?_ (fun w hw => ?_) fun w hw hn => ?_
    · rintro w rfl p hp
      exact (hs p hp).2
    · subst hw
      change I (w.tree.prune (sandbox r))
      refine hI.cleared _ (AlikeOutside.prune fun _ _ => rfl) (named_prune ht.named) fun p hp => ?_
      rw [get?_prune _ _ _ fun hn => sandbox_ne_nil r (List.prefix_nil.mp (hn ▸ hp)), if_pos hp]
    · subst hw
      exact hI.cleared _ (fun _ _ => rfl) ht.named fun p hp =>
        removeAll_notFound ht (sandbox_ne_nil r) (named_sandbox hr) hn hp
  have hroot : Spells (ofPlace r).root (sandbox r ++ []) := by
    rw [List.append_nil]
    exact spells_text (named_sandbox hr)
  unfold create
  refine Step.Leads.bind (hcleanup.weaken (fun _ h => h) (fun _ _ h => h) fun _ _ h => .inl h)
    fun _ => ?_
  refine Step.Leads.noted ?_ fun _ h => h
  refine Step.Leads.bind (Step.leads_change (Q := fun _ w => I w.tree) ?_ fun _ _ _ h => .inr h)
    fun _ => ?_
  · intro u w hu hw
    refine makeDirectories_copying hI.copying hs ?_ hroot hu hw
    rw [List.append_nil]
    exact named_sandbox hr
  refine Step.Leads.bind (Step.leads_tree (Q := fun _ w => I w.tree) fun _ h => h) fun u => ?_
  refine Step.Leads.bind (Step.leads_inspect (Q := fun _ w => I w.tree) (fun _ _ _ h => h)
    fun _ _ _ h => .inr h) fun place => ?_
  have hcopy := @copyBelow_leads _ _ I hI.copying hs hr (u.walkDepth + mostNames) [] _ _
    (entered_root hr place)
  exact Step.Leads.bind (hcopy.weaken (fun _ h => h) (fun _ _ h => h) fun _ _ h => .inr h)
    fun _ => Step.leads_note fun _ h => h

/-- A path below the project root is mapped to the same names below the sandbox. -/
theorem mapPath_eq_ok {q : Place} {mapped : String} (hr : ∀ s ∈ r, IsName s) (hp : Spells path q)
    (h : (ofPlace r).mapPath path = .ok mapped) :
    ∃ rel, q = r ++ rel ∧ Spells mapped (sandbox r ++ rel) := by
  unfold mapPath at h
  split at h
  · rename_i rest hs
    obtain ⟨rel, hq, hj⟩ := (spells_text hr).strip hp hs
    cases h
    exact ⟨rel, hq, hj (spells_text (named_sandbox hr))⟩
  · cases h

end Refit.Workspace
