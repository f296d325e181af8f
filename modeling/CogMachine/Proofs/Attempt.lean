import Mathlib.Data.List.Forall2

/-!
# Attempts

Computations that may fail, one after the other. A sequence succeeds exactly if both of its parts do,
and fails with what the first failing part says; a run of attempts keeps what each of its steps keeps.
-/

namespace CogMachine.Attempt

variable {α β ε : Type}

theorem bind_eq_ok {x : Except ε α} {f : α → Except ε β} {b : β} (h : x >>= f = .ok b) :
    ∃ a, x = .ok a ∧ f a = .ok b := by
  cases x with
  | error e => cases h
  | ok a => exact ⟨a, rfl, h⟩

theorem bind_eq_error {x : Except ε α} {f : α → Except ε β} {e : ε} (h : x >>= f = .error e) :
    x = .error e ∨ ∃ a, x = .ok a ∧ f a = .error e := by
  cases x with
  | error e' =>
      cases h
      exact .inl rfl
  | ok a => exact .inr ⟨a, rfl, h⟩

theorem map_eq_error {x : Except ε α} {f : α → β} {e : ε} (h : x.map f = .error e) : x = .error e := by
  cases x with
  | error e' =>
      cases h
      rfl
  | ok a => cases h

theorem map_eq_ok {x : Except ε α} {f : α → β} {b : β} (h : x.map f = .ok b) :
    ∃ a, x = .ok a ∧ f a = b := by
  cases x with
  | error e => cases h
  | ok a =>
      cases h
      exact ⟨a, rfl, rfl⟩

theorem forall₂_of_mapM {f : α → Except ε β} {xs : List α} {ys : List β}
    (h : xs.mapM f = .ok ys) : List.Forall₂ (fun x y => f x = .ok y) xs ys := by
  induction xs generalizing ys with
  | nil =>
      cases h
      exact .nil
  | cons x xs ih =>
      rw [List.mapM_cons] at h
      obtain ⟨y, hx, h⟩ := bind_eq_ok h
      obtain ⟨ys', hxs, h⟩ := bind_eq_ok h
      cases h
      exact .cons hx (ih hxs)

theorem exists_of_mem_mapM {f : α → Except ε β} {xs : List α} {ys : List β}
    (h : xs.mapM f = .ok ys) {y : β} (hy : y ∈ ys) : ∃ x ∈ xs, f x = .ok y := by
  have hall := forall₂_of_mapM h
  clear h
  induction hall with
  | nil => cases hy
  | cons hx _ ih =>
      rcases List.mem_cons.1 hy with rfl | hy
      · exact ⟨_, List.mem_cons_self, hx⟩
      · obtain ⟨x, hmem, hx⟩ := ih hy
        exact ⟨x, List.mem_cons_of_mem _ hmem, hx⟩

theorem exists_mapM {f : α → Except ε β} {xs : List α} (h : ∀ x ∈ xs, ∃ y, f x = .ok y) :
    ∃ ys, xs.mapM f = .ok ys := by
  induction xs with
  | nil => exact ⟨[], rfl⟩
  | cons x xs ih =>
      rw [List.forall_mem_cons] at h
      obtain ⟨⟨y, hx⟩, hrest⟩ := h
      obtain ⟨ys, hxs⟩ := ih hrest
      refine ⟨y :: ys, ?_⟩
      rw [List.mapM_cons, hx, hxs]
      rfl

/-- The first failure is the one that is reported. -/
theorem mapM_eq_error {f : α → Except ε β} {before after : List α} {x : α} {e : ε}
    (hbefore : ∀ y ∈ before, ∃ z, f y = .ok z) (hx : f x = .error e) :
    (before ++ x :: after).mapM f = .error e := by
  obtain ⟨ys, hys⟩ := exists_mapM hbefore
  rw [List.mapM_append, hys, List.mapM_cons, hx]
  rfl

theorem mapM_id_map_ok (xs : List α) : (xs.map (Except.ok (ε := ε))).mapM id = .ok xs := by
  induction xs with
  | nil => rfl
  | cons x xs ih =>
      rw [List.map_cons, List.mapM_cons, ih]
      rfl

theorem forM_map_ok_append {f : Except ε α → Except ε PUnit} (h : ∀ x, f (.ok x) = .ok ⟨⟩)
    (xs : List α) (rest : List (Except ε α)) : (xs.map Except.ok ++ rest).forM f = rest.forM f := by
  induction xs with
  | nil => rfl
  | cons x xs ih =>
      rw [List.map_cons, List.cons_append, List.forM, h]
      exact ih

theorem exists_of_mem_mapM_some {f : α → Option β} {xs : List α} {ys : List β}
    (h : xs.mapM f = some ys) {y : β} (hy : y ∈ ys) : ∃ x ∈ xs, f x = some y := by
  induction xs generalizing ys with
  | nil =>
      cases h
      cases hy
  | cons x xs ih =>
      rw [List.mapM_cons] at h
      obtain ⟨z, hx, h⟩ := Option.bind_eq_some_iff.1 h
      obtain ⟨zs, hxs, h⟩ := Option.bind_eq_some_iff.1 h
      cases h
      rcases List.mem_cons.1 hy with rfl | hy
      · exact ⟨x, List.mem_cons_self, hx⟩
      · obtain ⟨w, hw, heq⟩ := ih hxs hy
        exact ⟨w, List.mem_cons_of_mem _ hw, heq⟩

theorem exists_of_mapM_some {f : α → Option β} {xs : List α} {ys : List β}
    (h : xs.mapM f = some ys) {x : α} (hx : x ∈ xs) : ∃ y, f x = some y := by
  induction xs generalizing ys with
  | nil => cases hx
  | cons x' xs ih =>
      rw [List.mapM_cons] at h
      obtain ⟨y, hy, h⟩ := Option.bind_eq_some_iff.1 h
      obtain ⟨zs, hxs, -⟩ := Option.bind_eq_some_iff.1 h
      rcases List.mem_cons.1 hx with rfl | hx
      · exact ⟨y, hy⟩
      · exact ih hxs hx

/-- A run whose steps succeed goes the same way with steps that succeed wherever they did. -/
theorem foldlM_mono {f g : β → α → Except ε β} (hstep : ∀ b x b', f b x = .ok b' → g b x = .ok b')
    {xs : List α} {b b' : β} (h : xs.foldlM f b = .ok b') : xs.foldlM g b = .ok b' := by
  induction xs generalizing b with
  | nil => exact h
  | cons x xs ih =>
      rw [List.foldlM_cons] at h ⊢
      obtain ⟨b₁, hx, h⟩ := bind_eq_ok h
      rw [hstep b x b₁ hx]
      exact ih h

/-- **A run of attempts.** What holds of a prefix and is kept by each step holds of the whole. -/
theorem foldlM_prefix {f : β → α → Except ε β} {P : List α → β → Prop} {done xs : List α} {b b' : β}
    (hstep : ∀ done, ∀ x ∈ xs, ∀ b b', P done b → f b x = .ok b' → P (done ++ [x]) b')
    (hb : P done b) (h : xs.foldlM f b = .ok b') : P (done ++ xs) b' := by
  induction xs generalizing done b with
  | nil =>
      cases h
      rw [List.append_nil]
      exact hb
  | cons x xs ih =>
      rw [List.foldlM_cons] at h
      obtain ⟨b₁, hx, h⟩ := bind_eq_ok h
      have hfirst := hstep done x List.mem_cons_self b b₁ hb hx
      have hrest := ih (fun d y hy => hstep d y (List.mem_cons_of_mem x hy)) hfirst h
      rw [List.append_assoc] at hrest
      exact hrest

/-- Every step of a run has succeeded somewhere. -/
theorem exists_of_mem_foldlM {f : β → α → Except ε β} {xs : List α} {b b' : β}
    (h : xs.foldlM f b = .ok b') {x : α} (hx : x ∈ xs) : ∃ b₁ b₂, f b₁ x = .ok b₂ := by
  induction xs generalizing b with
  | nil => cases hx
  | cons y xs ih =>
      rw [List.foldlM_cons] at h
      obtain ⟨b₁, hy, h⟩ := bind_eq_ok h
      rcases List.mem_cons.1 hx with rfl | hx
      · exact ⟨b, b₁, hy⟩
      · exact ih h hx

/-- **A run that fails** fails at a step, where the steps before it have led. -/
theorem foldlM_eq_error {f : β → α → Except ε β} {xs : List α} {b : β} {e : ε}
    (h : xs.foldlM f b = .error e) :
    ∃ before x after b₁, xs = before ++ x :: after ∧ before.foldlM f b = .ok b₁ ∧ f b₁ x = .error e := by
  induction xs generalizing b with
  | nil => cases h
  | cons x xs ih =>
      rw [List.foldlM_cons] at h
      rcases bind_eq_error h with hx | ⟨b₁, hx, hrest⟩
      · exact ⟨[], x, xs, b, rfl, rfl, hx⟩
      · obtain ⟨before, y, after, b₂, rfl, hbefore, hy⟩ := ih hrest
        refine ⟨x :: before, y, after, b₂, rfl, ?_, hy⟩
        rw [List.foldlM_cons, hx]
        exact hbefore

/-- A run sees of its items what its steps see. -/
theorem foldlM_map_iff {γ : Type} {f : β → α → Except ε β} {g : β → γ → Except ε β} {view : α → γ}
    (hstep : ∀ b x b', f b x = .ok b' ↔ g b (view x) = .ok b') {xs : List α} {b b' : β} :
    xs.foldlM f b = .ok b' ↔ (xs.map view).foldlM g b = .ok b' := by
  constructor
  · intro h
    rw [List.foldlM_map]
    exact foldlM_mono (fun b x b' hx => (hstep b x b').1 hx) h
  · intro h
    rw [List.foldlM_map] at h
    exact foldlM_mono (fun b x b' hx => (hstep b x b').2 hx) h

/-- Items whose steps do nothing may be left out. -/
theorem foldlM_filter {f : β → α → Except ε β} {p : α → Bool}
    (hidle : ∀ b x, p x = false → f b x = .ok b) (xs : List α) (b : β) :
    (xs.filter p).foldlM f b = xs.foldlM f b := by
  induction xs generalizing b with
  | nil => rfl
  | cons x xs ih =>
      rw [List.filter_cons, List.foldlM_cons]
      cases hx : p x with
      | true =>
          rw [if_pos rfl, List.foldlM_cons]
          exact congrArg (f b x >>= ·) (funext ih)
      | false =>
          rw [if_neg (by simp), hidle b x hx]
          exact ih b

/-- **Steps that commute** may be taken in any order. -/
theorem foldlM_perm {f : β → α → Except ε β}
    (hcomm : ∀ b x y b₁ b₂, f b x = .ok b₁ → f b₁ y = .ok b₂ → ∃ b₃, f b y = .ok b₃ ∧ f b₃ x = .ok b₂)
    {xs ys : List α} (hperm : xs.Perm ys) {b b' : β} (h : xs.foldlM f b = .ok b') :
    ys.foldlM f b = .ok b' := by
  induction hperm generalizing b with
  | nil => exact h
  | cons x _ ih =>
      rw [List.foldlM_cons] at h ⊢
      obtain ⟨b₁, hx, h⟩ := bind_eq_ok h
      rw [hx]
      exact ih h
  | swap x y xs =>
      rw [List.foldlM_cons] at h ⊢
      obtain ⟨b₁, hy, h⟩ := bind_eq_ok h
      rw [List.foldlM_cons] at h
      obtain ⟨b₂, hx, h⟩ := bind_eq_ok h
      obtain ⟨b₃, hx', hy'⟩ := hcomm b y x b₁ b₂ hy hx
      rw [hx']
      show (y :: xs).foldlM f b₃ = _
      rw [List.foldlM_cons, hy']
      exact h
  | trans _ _ ih ih' => exact ih' (ih h)

end CogMachine.Attempt
