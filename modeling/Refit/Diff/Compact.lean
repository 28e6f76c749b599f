import Refit.Diff.Edit

namespace Refit.Diff

/-- An edit within a script, with the edits before it (nearest first) and after it. -/
structure Focus where
  before : List Edit
  edit : Edit
  after : List Edit

def Focus.toList (f : Focus) : List Edit := f.before.reverse ++ f.edit :: f.after

def keptLength (edits : List Edit) : Nat :=
  edits.foldr (fun e n => (if e.kind = .keep then e.oldLen else 0) + n) 0

def Edit.shorten (e : Edit) (n : Nat) : Edit :=
  { e with oldLen := e.oldLen - n, newLen := e.newLen - n }

def Edit.shiftUp (e : Edit) (n : Nat) : Edit := { e with old := e.old - n, new := e.new - n }

def Edit.shiftDown (e : Edit) (n : Nat) : Edit := { e with old := e.old + n, new := e.new + n }

def Edit.lengthen (e : Edit) (n : Nat) : Edit :=
  { e with oldLen := e.oldLen + n, newLen := e.newLen + n }

def Edit.join (first e : Edit) : Edit :=
  { first with oldLen := first.oldLen + e.oldLen, newLen := first.newLen + e.newLen }

/-- Gives `n` kept lines to the edit after a change that slides up. -/
def keepAfter (old new n : Nat) : List Edit → List Edit
  | [] => [.keep old new n]
  | e :: rest =>
    if e.kind = .keep then (e.shiftUp n).lengthen n :: rest else .keep old new n :: e :: rest

/-- Gives `n` kept lines to the edit before a change that slides down. -/
def keepBefore (old new n : Nat) : List Edit → List Edit
  | [] => [.keep old new n]
  | e :: rest => if e.kind = .keep then e.lengthen n :: rest else .keep old new n :: e :: rest

variable {α : Type} [DecidableEq α]

def moveUp (a b : Array α) (before : List Edit) (t : Edit) (after : List Edit) : Focus :=
  match before with
  | [] => ⟨[], t, after⟩
  | q :: rest =>
    if q.kind = .keep then
      let n := agreeingBack a b (q.old + q.oldLen) (t.new + t.newLen) (min q.oldLen t.newLen)
      if n = 0 then
        if q.isEmpty then moveUp a b rest t after else ⟨q :: rest, t, after⟩
      else
        let after' := keepAfter (q.old + q.oldLen - n) (t.new + t.newLen - n) n after
        if (q.shorten n).isEmpty then moveUp a b rest (t.shiftUp n) after'
        else moveUp a b (q.shorten n :: rest) (t.shiftUp n) after'
    else if q.kind = t.kind then moveUp a b rest (q.join t) after
    else moveUp a b rest t (q :: after)
termination_by before.length + keptLength before
decreasing_by
  all_goals simp_all [keptLength, Edit.shorten]
  all_goals try omega
  all_goals
    have := agreeingBack_le a b (q.old + q.oldLen) (t.new + t.newLen) (min q.oldLen t.newLen)
    omega

def moveDown (a b : Array α) (before : List Edit) (t : Edit) (after : List Edit) : Focus :=
  match after with
  | [] => ⟨before, t, []⟩
  | q :: rest =>
    if q.kind = .keep then
      let n := agreeing a b q.old t.new (min q.oldLen t.newLen)
      if n = 0 then
        if q.isEmpty then moveDown a b before t rest else ⟨before, t, q :: rest⟩
      else
        let before' := keepBefore q.old t.new n before
        if (q.shorten n).isEmpty then moveDown a b before' (t.shiftDown n) rest
        else moveDown a b before' (t.shiftDown n) ((q.shiftDown n).shorten n :: rest)
    else if q.kind = t.kind then moveDown a b before (t.join q) rest
    else moveDown a b (q :: before) t rest
termination_by after.length + keptLength after
decreasing_by
  all_goals simp_all [keptLength, Edit.shorten, Edit.shiftDown]
  all_goals try omega
  all_goals
    have := agreeing_le a b q.old t.new (min q.oldLen t.newLen)
    omega

def countKind (kind : Kind) (edits : List Edit) : Nat := edits.countP fun e => e.kind = kind

theorem countKind_cons (kind : Kind) (e : Edit) (edits : List Edit) :
    countKind kind (e :: edits) = countKind kind edits + if e.kind = kind then 1 else 0 := by
  simp [countKind, List.countP_cons]

theorem countKind_keepAfter {kind : Kind} (hk : kind ≠ .keep) (old new n : Nat)
    (edits : List Edit) : countKind kind (keepAfter old new n edits) = countKind kind edits := by
  have hkept (e : Edit) (l : List Edit) (he : e.kind = .keep) :
      countKind kind (e :: l) = countKind kind l := by
    rw [countKind_cons, if_neg (he ▸ Ne.symm hk), Nat.add_zero]
  cases edits with
  | nil => exact hkept _ _ rfl
  | cons e rest =>
    rw [keepAfter]
    split
    · rename_i he
      exact (hkept ((e.shiftUp n).lengthen n) rest he).trans (hkept e rest he).symm
    · exact hkept _ _ rfl

theorem countKind_moveUp (a b : Array α) (before : List Edit) (t : Edit) (after : List Edit)
    (ht : t.kind ≠ .keep) :
    countKind t.kind (moveUp a b before t after).after = countKind t.kind after := by
  fun_induction moveUp a b before t after with
  | case1 | case3 => rfl
  | case2 t after q rest hq n hn hempty ih => exact ih ht
  | case4 t after q rest hq n hn after' hempty ih | case5 t after q rest hq n hn after' hempty ih =>
    exact (ih ht).trans (countKind_keepAfter ht _ _ _ _)
  | case6 t after q rest hq he ih => exact he ▸ ih hq
  | case7 t after q rest hq he ih => rw [ih ht, countKind_cons, if_neg he, Nat.add_zero]

theorem countKind_moveDown (a b : Array α) (before : List Edit) (t : Edit) (after : List Edit)
    (ht : t.kind ≠ .keep) :
    countKind t.kind (moveDown a b before t after).after ≤ countKind t.kind after := by
  fun_induction moveDown a b before t after with
  | case1 | case3 => exact Nat.le_refl _
  | case2 before t q rest hq n hn hempty ih | case4 before t q rest hq n hn before' hempty ih =>
    exact Nat.le_trans (ih ht) (countKind_cons .. ▸ Nat.le_add_right _ _)
  | case5 before t q rest hq n hn before' hempty ih =>
    refine Nat.le_trans (ih ht) (Nat.le_of_eq ?_)
    rw [countKind_cons, countKind_cons]
    rfl
  | case6 before t q rest hq he ih | case7 before t q rest hq he ih =>
    exact Nat.le_trans (ih ht) (countKind_cons .. ▸ Nat.le_add_right _ _)

theorem moveUp_kind (a b : Array α) (before : List Edit) (t : Edit) (after : List Edit) :
    (moveUp a b before t after).edit.kind = t.kind := by
  fun_induction moveUp a b before t after <;> simp_all [Edit.shiftUp, Edit.join]

def settle (a b : Array α) {kind : Kind} (hk : kind ≠ .keep) (before : List Edit) :
    List Edit → List Edit
  | [] => before.reverse
  | t :: after =>
    if t.kind = kind then
      let up := moveUp a b before t after
      let down := moveDown a b up.before up.edit up.after
      settle a b hk (down.edit :: down.before) down.after
    else settle a b hk (t :: before) after
termination_by rest => (countKind kind rest, rest.length)
decreasing_by
  · rename_i ht
    have hup := countKind_moveUp a b before t after (ht ▸ hk)
    have hdown := countKind_moveDown a b up.before up.edit up.after (by
      rw [moveUp_kind, ht]
      exact hk)
    rw [moveUp_kind, hup, ht] at hdown
    rw [countKind_cons, if_pos ht]
    exact Prod.Lex.left _ _ (Nat.lt_succ_of_le hdown)
  · rename_i ht
    rw [countKind_cons, if_neg ht]
    exact Prod.Lex.right _ (Nat.lt_succ_self _)

def compact (a b : Array α) (edits : List Edit) : List Edit :=
  settle a b (nofun : Kind.insert ≠ .keep) [] (settle a b (nofun : Kind.remove ≠ .keep) [] edits)

end Refit.Diff
