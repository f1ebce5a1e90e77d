import Mathlib
import LogicSynthesis.Fault

/-!
# Outcomes of computations that may stop

A computation in `Except Fault` ends in a result or stops with a fault. `Ends permitted x post`
says that `x` ends in a result with the property `post`, or else stops with a fault that is
permitted. With no fault permitted it says that there is a result; the rules below hold for
whatever faults are permitted, so a safety statement and the statement that an operation succeeds
have one proof. `Agree related x y` compares two computations: both have results, which are
related, or both stop with the same fault.

## Main definitions

- `Ends` — the outcome of a computation
- `Never`, `Anything` — no fault is permitted, and all are
- `Agree` — the outcomes of two computations

## Main statements

- `Ends.bind`, `Ends.foldlM`, `Ends.foldlM_prefix`, `Ends.foldlM_run` — the rules for sequences and
  loops
- `ends_never_iff` — with no fault permitted, there is a result
- `Agree.bind`, `Agree.foldlM_prefix` — the rules for two computations side by side
-/

namespace LogicSynthesis

variable {α β σ τ : Type} {permitted : Fault → Prop}

/-- The computation ends in a result that satisfies `post`, or it stops with a permitted fault. -/
def Ends (permitted : Fault → Prop) (x : Except Fault α) (post : α → Prop) : Prop :=
  match x with
  | .ok a => post a
  | .error fault => permitted fault

/-- No fault is permitted. -/
def Never : Fault → Prop := fun _ => False

/-- Every fault is permitted, and only results matter. -/
def Anything : Fault → Prop := fun _ => True

@[simp]
theorem ok_bind (a : α) (f : α → Except Fault β) : (Except.ok a >>= f) = f a := rfl

@[simp]
theorem error_bind (fault : Fault) (f : α → Except Fault β) :
    (Except.error fault >>= f) = .error fault := rfl

@[simp]
theorem pure_eq_ok (a : α) : (pure a : Except Fault α) = .ok a := rfl

@[simp]
theorem throw_eq_error (fault : Fault) : (throw fault : Except Fault α) = .error fault := rfl

@[simp]
theorem map_ok (a : α) (f : α → β) : (Except.ok a : Except Fault α).map f = .ok (f a) := rfl

@[simp]
theorem map_error (fault : Fault) (f : α → β) :
    (Except.error fault : Except Fault α).map f = .error fault := rfl

theorem require_of {condition : Bool} (h : condition = true) (fault : Fault) :
    require condition fault = .ok () := if_pos h

theorem require_eq_ok {condition : Bool} {fault : Fault} {u : Unit}
    (h : require condition fault = .ok u) : condition = true := by
  unfold require at h
  split at h
  · assumption
  · cases h

/-- A sequence that has a result went through a result of its first part. -/
theorem bind_eq_ok {x : Except Fault α} {f : α → Except Fault β} {b : β}
    (h : (x >>= f) = .ok b) : ∃ a, x = .ok a ∧ f a = .ok b := by
  cases x with
  | error fault => cases h
  | ok a => exact ⟨a, rfl, h⟩

/-- What is read off a result comes from a result. -/
theorem map_eq_ok {x : Except Fault α} {f : α → β} {b : β} (h : x.map f = .ok b) :
    ∃ a, x = .ok a ∧ f a = b := by
  cases x with
  | error fault => cases h
  | ok a => exact ⟨a, rfl, Except.ok.inj h⟩

/-- A list of computations that all have results. -/
theorem mapM_eq_ok {f : α → Except Fault β} {g : α → β} {as : List α}
    (h : ∀ a ∈ as, f a = .ok (g a)) : as.mapM f = .ok (as.map g) := by
  induction as with
  | nil => rfl
  | cons a as ih =>
    rw [List.mapM_cons, h a List.mem_cons_self, ok_bind,
      ih fun b hb => h b (List.mem_cons_of_mem _ hb)]
    rfl

@[simp]
theorem ends_ok {a : α} {post : α → Prop} : Ends permitted (.ok a) post ↔ post a := Iff.rfl

@[simp]
theorem ends_error {fault : Fault} {post : α → Prop} :
    Ends permitted (.error fault) post ↔ permitted fault := Iff.rfl

theorem ends_never_iff {x : Except Fault α} {post : α → Prop} :
    Ends Never x post ↔ ∃ a, x = .ok a ∧ post a := by
  cases x with
  | ok a => simp
  | error fault => simp [Never]

theorem ends_anything_iff {x : Except Fault α} {post : α → Prop} :
    Ends Anything x post ↔ ∀ a, x = .ok a → post a := by
  cases x with
  | ok a => simp
  | error fault => simp [Anything]

namespace Ends

variable {x : Except Fault α} {f : α → Except Fault β} {post post' : α → Prop} {goal : β → Prop}

theorem of_eq {a : α} (hx : x = .ok a) (h : post a) : Ends permitted x post := by
  rw [hx]
  exact h

/-- Where all faults are permitted, only a result has to be looked at. -/
theorem of_forall (h : ∀ fault, permitted fault) (hpost : ∀ a, x = .ok a → post a) :
    Ends permitted x post := by
  cases x with
  | ok a => exact hpost a rfl
  | error fault => exact h fault

theorem mono (h : Ends permitted x post) (himp : ∀ a, post a → post' a) :
    Ends permitted x post' := by
  cases x with
  | ok a => exact himp a h
  | error fault => exact h

/-- The consequence may use that the computation has the result. -/
theorem mono_eq (h : Ends permitted x post) (himp : ∀ a, x = .ok a → post a → post' a) :
    Ends permitted x post' := by
  cases x with
  | ok a => exact himp a rfl h
  | error fault => exact h

theorem bind (hx : Ends permitted x post) (hf : ∀ a, post a → Ends permitted (f a) goal) :
    Ends permitted (x >>= f) goal := by
  cases x with
  | ok a => exact hf a hx
  | error fault => exact hx

theorem map {g : α → β} (hx : Ends permitted x post) (hg : ∀ a, post a → goal (g a)) :
    Ends permitted (x.map g) goal := by
  cases x with
  | ok a => exact hg a hx
  | error fault => exact hx

/-- The second part may know the result of the first. -/
theorem bind_eq (hx : Ends permitted x post)
    (hf : ∀ a, x = .ok a → post a → Ends permitted (f a) goal) :
    Ends permitted (x >>= f) goal := by
  cases x with
  | ok a => exact hf a rfl hx
  | error fault => exact hx

theorem require {condition : Bool} {fault : Fault} (h : condition = true ∨ permitted fault) :
    Ends permitted (require condition fault) fun _ => condition = true := by
  unfold LogicSynthesis.require
  split
  · assumption
  · next hfalse => exact h.resolve_left hfalse

/-- The result, when there is one. -/
theorem post_of_eq (h : Ends permitted x post) {a : α} (hx : x = .ok a) : post a := by
  rw [hx] at h
  exact h

/-- A loop keeps what its body keeps, where the body may know which elements come before. -/
theorem foldlM_prefix {body : σ → α → Except Fault σ} (inv : List α → σ → Prop) {as : List α}
    {s : σ} (hinit : inv [] s)
    (hstep : ∀ before a after s, as = before ++ a :: after → inv before s →
      Ends permitted (body s a) (inv (before ++ [a]))) :
    Ends permitted (as.foldlM body s) (inv as) := by
  have hgen : ∀ after before s, as = before ++ after → inv before s →
      Ends permitted (after.foldlM body s) (inv as) := by
    intro after
    induction after with
    | nil =>
      intro before s heq hinv
      rw [List.append_nil] at heq
      rw [heq]
      exact hinv
    | cons a after ih =>
      intro before s heq hinv
      rw [List.foldlM_cons]
      apply (hstep before a after s heq hinv).bind
      intro s' hinv'
      apply ih (before ++ [a]) s' _ hinv'
      rw [heq, List.append_assoc, List.singleton_append]
  exact hgen as [] s rfl hinit

/-- The body may also know which run has led to its state. -/
theorem foldlM_run {body : σ → α → Except Fault σ} (inv : List α → σ → Prop) {as : List α}
    {s : σ} (hinit : inv [] s)
    (hstep : ∀ before a after t, as = before ++ a :: after → before.foldlM body s = .ok t →
      inv before t → Ends permitted (body t a) (inv (before ++ [a]))) :
    Ends permitted (as.foldlM body s) (inv as) := by
  have hloop : Ends permitted (as.foldlM body s) fun t => as.foldlM body s = .ok t ∧ inv as t := by
    refine foldlM_prefix (fun before t => before.foldlM body s = .ok t ∧ inv before t)
      ⟨rfl, hinit⟩ ?_
    rintro before a after t heq ⟨hrun, hinv⟩
    refine (hstep before a after t heq hrun hinv).mono_eq fun t' ht' hinv' => ⟨?_, hinv'⟩
    rw [List.foldlM_append, hrun, ok_bind, List.foldlM_cons, ht']
    rfl
  exact hloop.mono fun _ => And.right

/-- A loop keeps what its body keeps. -/
theorem foldlM {body : σ → α → Except Fault σ} (inv : σ → Prop) {as : List α} {s : σ}
    (hinit : inv s) (hstep : ∀ a ∈ as, ∀ s, inv s → Ends permitted (body s a) inv) :
    Ends permitted (as.foldlM body s) inv := by
  apply foldlM_prefix (fun _ => inv) hinit
  intro before a after s heq hinv
  apply hstep a _ s hinv
  rw [heq]
  exact List.mem_append_right _ List.mem_cons_self

end Ends

/-- Both computations have results, which are related, or both stop with the same fault. -/
def Agree (related : α → β → Prop) : Except Fault α → Except Fault β → Prop
  | .ok a, .ok b => related a b
  | .error fault, .error fault' => fault = fault'
  | _, _ => False

namespace Agree

variable {α' β' : Type} {related : α → β → Prop} {related' : α' → β' → Prop}
  {x : Except Fault α} {y : Except Fault β}

/-- The results are related, when there are two. -/
theorem related_of_eq (h : Agree related x y) {a : α} {b : β} (hx : x = .ok a) (hy : y = .ok b) :
    related a b := by
  rw [hx, hy] at h
  exact h

theorem mono {wider : α → β → Prop} (h : Agree related x y)
    (himp : ∀ a b, related a b → wider a b) : Agree wider x y := by
  cases x with
  | error fault =>
    cases y with
    | error fault' => exact h
    | ok b => exact h.elim
  | ok a =>
    cases y with
    | error fault' => exact h.elim
    | ok b => exact himp a b h

theorem bind {f : α → Except Fault α'} {g : β → Except Fault β'} (h : Agree related x y)
    (hf : ∀ a b, related a b → Agree related' (f a) (g b)) :
    Agree related' (x >>= f) (y >>= g) := by
  cases x with
  | error fault =>
    cases y with
    | error fault' => exact h
    | ok b => exact h.elim
  | ok a =>
    cases y with
    | error fault' => exact h.elim
    | ok b => exact hf a b h

/-- Two computations with a common first part. -/
theorem bind_same {f : α → Except Fault α'} {g : α → Except Fault β'}
    (h : ∀ a, Agree related' (f a) (g a)) : Agree related' (x >>= f) (x >>= g) := by
  cases x with
  | error fault => exact Eq.refl fault
  | ok a => exact h a

/-- Two loops over the same list, where the bodies may know which elements come before. -/
theorem foldlM_prefix {body : σ → α → Except Fault σ} {body' : τ → α → Except Fault τ}
    (inv : List α → σ → τ → Prop) {as : List α} {s : σ} {t : τ} (hinit : inv [] s t)
    (hstep : ∀ before a after s t, as = before ++ a :: after → inv before s t →
      Agree (inv (before ++ [a])) (body s a) (body' t a)) :
    Agree (inv as) (as.foldlM body s) (as.foldlM body' t) := by
  have hgen : ∀ after before s t, as = before ++ after → inv before s t →
      Agree (inv as) (after.foldlM body s) (after.foldlM body' t) := by
    intro after
    induction after with
    | nil =>
      intro before s t heq hinv
      rw [List.append_nil] at heq
      rw [heq]
      exact hinv
    | cons a after ih =>
      intro before s t heq hinv
      rw [List.foldlM_cons, List.foldlM_cons]
      apply (hstep before a after s t heq hinv).bind
      intro s' t' hinv'
      apply ih (before ++ [a]) s' t' _ hinv'
      rw [heq, List.append_assoc, List.singleton_append]
  exact hgen as [] s t rfl hinit

end Agree

end LogicSynthesis
