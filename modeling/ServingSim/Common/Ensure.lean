import Mathlib.Tactic

/-
  Fallible checks (`anyhow::ensure!`, `assert!`): a condition and the message of
  the error its failure returns. The source formats messages with field values; the
  model builds the same text by concatenation. Indexing a slice fails out of bounds.
-/

namespace ServingSim

/-- Fail with `message` unless the condition holds. -/
def ensure (condition : Prop) [Decidable condition] (message : String) : Except String Unit :=
  if condition then .ok () else .error message

@[simp] theorem ensure_eq_ok_iff {condition : Prop} [Decidable condition] {message : String} :
    ensure condition message = .ok () ↔ condition := by
  by_cases h : condition <;> simp [ensure, h]

@[simp] theorem bind_eq_ok_iff {α β : Type} {x : Except String α} {f : α → Except String β}
    {b : β} : (x >>= f) = .ok b ↔ ∃ a, x = .ok a ∧ f a = .ok b := by
  cases x with
  | error e => simp [bind, Except.bind]
  | ok a => simp [bind, Except.bind]

theorem check_then_eq_ok_iff {β : Type} {x : Except String Unit} {y : Except String β} {b : β} :
    (x >>= fun _ => y) = .ok b ↔ x = .ok () ∧ y = .ok b := by
  simp only [bind_eq_ok_iff, exists_and_right]
  exact and_congr_left fun _ => ⟨fun ⟨_, h⟩ => h, fun h => ⟨(), h⟩⟩

theorem forM_eq_ok_iff {α : Type} {xs : List α} {f : α → Except String Unit} :
    forM xs f = .ok () ↔ ∀ x ∈ xs, f x = .ok () := by
  induction xs with
  | nil => simp [pure, Except.pure]
  | cons x xs ih => rw [List.forM_cons, check_then_eq_ok_iff, ih, List.forall_mem_cons]

theorem mapM_eq_ok_of_forall {α β : Type} {xs : List α} {f : α → Except String β} {g : α → β}
    (h : ∀ x ∈ xs, f x = .ok (g x)) : xs.mapM f = .ok (xs.map g) := by
  induction xs with
  | nil => rfl
  | cons x xs ih =>
    rw [List.mapM_cons, h x List.mem_cons_self, ih fun y hy => h y (List.mem_cons_of_mem _ hy)]
    rfl

theorem mapM_congr {m : Type → Type} [Monad m] [LawfulMonad m] {α β : Type} {xs : List α}
    {f g : α → m β} (h : ∀ x ∈ xs, f x = g x) : xs.mapM f = xs.mapM g := by
  induction xs with
  | nil => rfl
  | cons x xs ih =>
    rw [List.mapM_cons, List.mapM_cons, h x List.mem_cons_self,
      ih fun y hy => h y (List.mem_cons_of_mem _ hy)]

section

variable {α β : Type} {xs : List α} {f : α → Except String β} {ys : List β}

include α β xs f ys

theorem mapM_eq_ok_iff :
    xs.mapM f = .ok ys ↔ List.Forall₂ (fun x y => f x = .ok y) xs ys := by
  induction xs generalizing ys with
  | nil => simp [pure, Except.pure, eq_comm]
  | cons x xs ih =>
    simp only [List.mapM_cons, bind_eq_ok_iff, ih, pure, Except.pure, Except.ok.injEq]
    constructor
    · rintro ⟨y, hy, others, hothers, rfl⟩
      exact .cons hy hothers
    · rintro (_ | ⟨hy, hothers⟩)
      exact ⟨_, hy, _, hothers, rfl⟩

theorem exists_ok_of_mapM (h : xs.mapM f = .ok ys) {x : α} (hx : x ∈ xs) : ∃ y, f x = .ok y := by
  induction mapM_eq_ok_iff.mp h with
  | nil => cases hx
  | cons hy hothers ih =>
    rcases List.mem_cons.mp hx with rfl | hx
    · exact ⟨_, hy⟩
    · exact ih (mapM_eq_ok_iff.mpr hothers) hx

theorem exists_mem_of_mapM
    (h : xs.mapM f = .ok ys) {y : β} (hy : y ∈ ys) : ∃ x ∈ xs, f x = .ok y := by
  induction mapM_eq_ok_iff.mp h with
  | nil => cases hy
  | cons hhead hothers ih =>
    rcases List.mem_cons.mp hy with rfl | hy
    · exact ⟨_, List.mem_cons_self, hhead⟩
    · obtain ⟨x, hx, hfx⟩ := ih (mapM_eq_ok_iff.mpr hothers) hy
      exact ⟨x, List.mem_cons_of_mem _ hx, hfx⟩

theorem mem_of_mapM
    (h : xs.mapM f = .ok ys) {x : α} (hx : x ∈ xs) {y : β} (hfx : f x = .ok y) : y ∈ ys := by
  induction mapM_eq_ok_iff.mp h with
  | nil => cases hx
  | cons hhead hothers ih =>
    rcases List.mem_cons.mp hx with rfl | hx
    · rw [hhead] at hfx
      rw [Except.ok.inj hfx]
      exact List.mem_cons_self
    · exact List.mem_cons_of_mem _ (ih (mapM_eq_ok_iff.mpr hothers) hx)

end

/-! ## Which errors a computation ends with -/

/-- An error that `bad` describes. -/
def EndsWith {α : Type} (bad : String → Prop) (x : Except String α) : Prop :=
  ∃ e, x = .error e ∧ bad e

theorem EndsWith.bind {α β : Type} {bad : String → Prop} {x : Except String α}
    (h : EndsWith bad x) (f : α → Except String β) : EndsWith bad (x >>= f) := by
  obtain ⟨e, rfl, he⟩ := h
  exact ⟨e, rfl, he⟩

theorem EndsWith.mono {α : Type} {bad worse : String → Prop} {x : Except String α}
    (h : EndsWith bad x) (hworse : ∀ e, bad e → worse e) : EndsWith worse x := by
  obtain ⟨e, hx, he⟩ := h
  exact ⟨e, hx, hworse e he⟩

theorem not_endsWith_ok {α : Type} {bad : String → Prop} {a : α} :
    ¬EndsWith bad (.ok a : Except String α) := by
  rintro ⟨_, h, -⟩
  cases h

theorem ensure_ok_or (condition : Prop) [Decidable condition] (message : String) :
    ¬condition ∧ ensure condition message = .error message ∨ ensure condition message = .ok () := by
  by_cases h : condition <;> simp [ensure, h]

/-! ## Loops -/

theorem foldlM_ok_or_of_visited {α β : Type} {B : String → Prop} {f : β → α → Except String β}
    {I : List α → β → Prop} {l : List α}
    (hf : ∀ visited x rest b, l = visited ++ x :: rest → I visited b →
      EndsWith B (f b x) ∨ ∃ b', f b x = .ok b' ∧ I (visited ++ [x]) b')
    {b : β} (h : I [] b) : EndsWith B (l.foldlM f b) ∨ ∃ b', l.foldlM f b = .ok b' ∧ I l b' := by
  have hloop : ∀ rest visited b, l = visited ++ rest → I visited b →
      EndsWith B (rest.foldlM f b) ∨ ∃ b', rest.foldlM f b = .ok b' ∧ I l b' := by
    intro rest
    induction rest with
    | nil =>
      intro visited b hl hI
      rw [List.append_nil] at hl
      exact .inr ⟨b, rfl, hl ▸ hI⟩
    | cons x rest ih =>
      intro visited b hl hI
      rw [List.foldlM_cons]
      rcases hf visited x rest b hl hI with hfail | ⟨b', hb', hI'⟩
      · exact .inl (hfail.bind _)
      · rw [hb']
        exact ih (visited ++ [x]) b' (by rw [hl, List.append_assoc]; rfl) hI'
  exact hloop l [] b rfl h

theorem foldlM_ok_of_visited {α β : Type} {f : β → α → Except String β} {I : List α → β → Prop}
    {l : List α} (hf : ∀ visited x rest b, l = visited ++ x :: rest → I visited b →
      ∃ b', f b x = .ok b' ∧ I (visited ++ [x]) b')
    {b : β} (h : I [] b) : ∃ b', l.foldlM f b = .ok b' ∧ I l b' :=
  (foldlM_ok_or_of_visited (B := fun _ => False)
    (fun visited x rest b hl hI => .inr (hf visited x rest b hl hI)) h).resolve_left
    fun ⟨_, _, hfalse⟩ => hfalse

theorem foldlM_ok_of_invariant {α β : Type} {f : β → α → Except String β} {I : β → Prop}
    {l : List α} (hf : ∀ x ∈ l, ∀ b, I b → ∃ b', f b x = .ok b' ∧ I b') {b : β} (h : I b) :
    ∃ b', l.foldlM f b = .ok b' ∧ I b' :=
  foldlM_ok_of_visited (I := fun _ => I)
    (fun visited x rest b hl hI => hf x (by simp [hl]) b hI) h

theorem mapM_ok_of_forall {α β : Type} {f : α → Except String β} {l : List α}
    (h : ∀ x ∈ l, ∃ y, f x = .ok y) : ∃ ys, l.mapM f = .ok ys := by
  induction l with
  | nil => exact ⟨[], rfl⟩
  | cons x l ih =>
    obtain ⟨y, hy⟩ := h x List.mem_cons_self
    obtain ⟨ys, hys⟩ := ih fun x hx => h x (List.mem_cons_of_mem _ hx)
    refine ⟨y :: ys, ?_⟩
    rw [List.mapM_cons, hy, hys]
    rfl

/-! ## Which errors a computation cannot end with -/

theorem ok_ne_error (a : α) (e : ε) : (.ok a : Except ε α) ≠ .error e := by
  intro h
  cases h

theorem bind_ne_error {α β : Type} {x : Except String α} {f : α → Except String β} {e : String}
    (hx : x ≠ .error e) (hf : ∀ a, x = .ok a → f a ≠ .error e) : (x >>= f) ≠ .error e := by
  cases x with
  | error e' => exact fun h => hx (congrArg Except.error (Except.error.inj h))
  | ok a => exact hf a rfl

theorem ensure_ne_error {condition : Prop} [Decidable condition] {message e : String}
    (h : message ≠ e) : ensure condition message ≠ .error e := by
  unfold ensure
  split
  · exact nofun
  · exact fun heq => h (Except.error.inj heq)

theorem foldlM_ne_error {α β : Type} {f : β → α → Except String β} {e : String}
    (hf : ∀ b a, f b a ≠ .error e) (xs : List α) (b : β) : xs.foldlM f b ≠ .error e := by
  induction xs generalizing b with
  | nil => exact nofun
  | cons x xs ih =>
    rw [List.foldlM_cons]
    exact bind_ne_error (hf b x) fun b' _ => ih b'

theorem exists_ok_of_check {α : Type} {x : Except String α} {check : α → Bool}
    (h : (match x with | .ok a => check a | .error _ => false) = true) :
    ∃ a, x = .ok a ∧ check a = true := by
  cases x with
  | error e => cases h
  | ok a => exact ⟨a, rfl, h⟩

theorem exists_ok_of_any {α : Type} {x : Except String α} {check : α → Bool}
    (h : x.toOption.any check = true) : ∃ a, x = .ok a ∧ check a = true := by
  cases x with
  | error e => cases h
  | ok a => exact ⟨a, rfl, h⟩

/-! ## Indexing -/

/-- `l[i]`. -/
def index {α : Type} (l : List α) (i : Nat) : Except String α :=
  match l[i]? with
  | some a => .ok a
  | none => .error "index out of bounds"

theorem index_eq_ok_iff {α : Type} {l : List α} {i : Nat} {a : α} :
    index l i = .ok a ↔ l[i]? = some a := by
  unfold index
  split <;> simp_all

/-- `l[i] += n`. -/
def bump (l : List Nat) (i n : Nat) : Except String (List Nat) := do
  let value ← index l i
  return l.set i (value + n)

theorem bump_spec {l : List Nat} {i : Nat} (n : Nat) (hi : i < l.length) :
    ∃ l' : List Nat, bump l i n = .ok l' ∧ l'.length = l.length ∧ l'.sum = l.sum + n ∧
      ∀ j : Nat, l'.getD j 0 = l.getD j 0 + if j = i then n else 0 := by
  have hindex : index l i = .ok l[i] := index_eq_ok_iff.mpr (List.getElem?_eq_getElem hi)
  refine ⟨l.set i (l[i] + n), by rw [bump, hindex]; rfl, List.length_set, ?_, ?_⟩
  · clear hindex
    induction l generalizing i with
    | nil => exact absurd hi (Nat.not_lt_zero i)
    | cons a l ih =>
      cases i with
      | zero =>
        simp only [List.set_cons_zero, List.getElem_cons_zero, List.sum_cons]
        omega
      | succ i =>
        have := ih (Nat.lt_of_succ_lt_succ hi)
        simp only [List.set_cons_succ, List.getElem_cons_succ, List.sum_cons, this]
        omega
  · intro j
    rw [List.getD_eq_getElem?_getD, List.getD_eq_getElem?_getD]
    by_cases hji : j = i
    · subst hji
      rw [List.getElem?_set_self hi, List.getElem?_eq_getElem hi, if_pos rfl]
      rfl
    · rw [List.getElem?_set_ne (Ne.symm hji), if_neg hji, Nat.add_zero]

end ServingSim
