import Mathlib.Data.List.TakeWhile

/-
  Compact JSON texts of nested lists.

  A text is read back where it ends: inside a list, every item is followed by a comma or by the
  closing bracket. A way of writing values is `Delimits` when a text followed by either gives
  the value and the rest.
-/

namespace JsonText

/-- What follows an item: nothing, a comma or a closing bracket. -/
def Ends (rest : List Char) : Prop := ∀ c ∈ rest.head?, c = ',' ∨ c = ']'

/-- Texts that tell the value and where they end, and that do not start like the end of a
    list. -/
structure Delimits {α : Type} (text : α → List Char) : Prop where
  starts : ∀ a, ∃ c cs, text a = c :: cs ∧ c ≠ ']'
  splits : ∀ a b r s, Ends r → Ends s → text a ++ r = text b ++ s → a = b ∧ r = s

theorem Delimits.injective {α : Type} {text : α → List Char} (h : Delimits text) {a b : α}
    (heq : text a = text b) : a = b :=
  (h.splits a b [] [] (fun _ h => by cases h) (fun _ h => by cases h)
    (congrArg (· ++ []) heq)).1

/-! ## Scalars -/

theorem delimits_of_chars {α : Type} {text : α → List Char} (hne : ∀ a, text a ≠ [])
    (hchars : ∀ a, ∀ c ∈ text a, c ≠ ',' ∧ c ≠ ']') (hinj : ∀ a b, text a = text b → a = b) :
    Delimits text := by
  refine ⟨fun a => ?_, fun a b r s hr hs heq => ?_⟩
  · cases htext : text a with
    | nil => exact absurd htext (hne a)
    | cons c cs => exact ⟨c, cs, rfl, (hchars a c (htext ▸ List.mem_cons_self)).2⟩
  · let inside : Char → Bool := fun c => c ≠ ',' && c ≠ ']'
    have htake : ∀ (t rest : List Char), (∀ c ∈ t, c ≠ ',' ∧ c ≠ ']') → Ends rest →
        (t ++ rest).takeWhile inside = t := by
      intro t rest ht hrest
      have hin : ∀ c ∈ t, inside c = true := fun c hc => by simpa [inside] using ht c hc
      rw [List.takeWhile_append_of_pos hin]
      have hstop : rest.takeWhile inside = [] := by
        cases rest with
        | nil => rfl
        | cons c cs =>
          have hc : inside c = false := by
            rcases hrest c rfl with rfl | rfl <;> rfl
          rw [List.takeWhile_cons_of_neg (by simp [hc])]
      rw [hstop, List.append_nil]
    have htext : text a = text b := by
      rw [← htake (text a) r (hchars a) hr, heq, htake (text b) s (hchars b) hs]
    rw [htext] at heq
    exact ⟨hinj a b htext, List.append_cancel_left heq⟩

/-- An integer in decimal. -/
def intText (n : Int) : List Char :=
  if n < 0 then '-' :: Nat.toDigits 10 n.natAbs else Nat.toDigits 10 n.natAbs

theorem digits_injective {m n : Nat} (h : Nat.toDigits 10 m = Nat.toDigits 10 n) : m = n := by
  have hm := Nat.ofDigitChars_toDigits (n := m) (b := 10) (by omega) (by omega)
  have hn := Nat.ofDigitChars_toDigits (n := n) (b := 10) (by omega) (by omega)
  rw [← hm, h, hn]

theorem digit_ne {n : Nat} {c : Char} (h : c ∈ Nat.toDigits 10 n) :
    c ≠ ',' ∧ c ≠ ']' ∧ c ≠ '-' := by
  have hdigit := Nat.isDigit_of_mem_toDigits (by omega) (by omega) h
  refine ⟨?_, ?_, ?_⟩ <;> rintro rfl <;> cases hdigit

theorem intText_injective {m n : Int} (h : intText m = intText n) : m = n := by
  have hsign : ∀ {k l : Nat}, '-' :: Nat.toDigits 10 k ≠ Nat.toDigits 10 l := fun heq =>
    (digit_ne (heq ▸ List.mem_cons_self)).2.2 rfl
  rw [intText, intText] at h
  by_cases hm : m < 0
  · by_cases hn : n < 0
    · rw [if_pos hm, if_pos hn] at h
      have habs := digits_injective (List.cons.inj h).2
      omega
    · rw [if_pos hm, if_neg hn] at h
      exact absurd h hsign
  · by_cases hn : n < 0
    · rw [if_neg hm, if_pos hn] at h
      exact absurd h.symm hsign
    · rw [if_neg hm, if_neg hn] at h
      have habs := digits_injective h
      omega

theorem delimits_int : Delimits intText := by
  refine delimits_of_chars (fun n => ?_) (fun n c hc => ?_) fun m n => intText_injective
  · rw [intText]
    by_cases hn : n < 0
    · rw [if_pos hn]
      exact List.cons_ne_nil _ _
    · rw [if_neg hn]
      exact Nat.toDigits_ne_nil
  · rw [intText] at hc
    by_cases hn : n < 0
    · rw [if_pos hn] at hc
      rcases List.mem_cons.mp hc with rfl | hc
      · exact ⟨by decide, by decide⟩
      · exact ⟨(digit_ne hc).1, (digit_ne hc).2.1⟩
    · rw [if_neg hn] at hc
      exact ⟨(digit_ne hc).1, (digit_ne hc).2.1⟩

def boolText (b : Bool) : List Char :=
  if b then ['t', 'r', 'u', 'e'] else ['f', 'a', 'l', 's', 'e']

theorem delimits_bool : Delimits boolText := by
  refine delimits_of_chars (fun b => ?_) (fun b => ?_) fun a b => ?_
  · cases b <;> simp [boolText]
  · cases b <;> simp [boolText]
  · cases a <;> cases b <;> simp [boolText]

theorem Delimits.comp {α β : Type} {text : β → List Char} (h : Delimits text) {f : α → β}
    (hf : ∀ a b, f a = f b → a = b) : Delimits fun a => text (f a) :=
  ⟨fun a => h.starts (f a), fun a b r s hr hs heq =>
    let split := h.splits (f a) (f b) r s hr hs heq
    ⟨hf a b split.1, split.2⟩⟩

/-! ## Lists -/

/-- The items after the first, each behind its comma, and the closing bracket. -/
def restText {α : Type} (text : α → List Char) : List α → List Char
  | [] => [']']
  | a :: items => ',' :: (text a ++ restText text items)

def listText {α : Type} (text : α → List Char) : List α → List Char
  | [] => ['[', ']']
  | a :: items => '[' :: (text a ++ restText text items)

theorem ends_rest {α : Type} (text : α → List Char) (items : List α) (r : List Char) :
    Ends (restText text items ++ r) := by
  cases items with
  | nil => exact fun c hc => .inr (Option.some.inj hc).symm
  | cons a items => exact fun c hc => .inl (Option.some.inj hc).symm

theorem splits_rest {α : Type} {text : α → List Char} (h : Delimits text) (items : List α) :
    ∀ (others : List α) (r s : List Char),
      restText text items ++ r = restText text others ++ s → items = others ∧ r = s := by
  induction items with
  | nil =>
    intro others r s heq
    cases others with
    | nil => exact ⟨rfl, (List.cons.inj heq).2⟩
    | cons b others => exact absurd (List.cons.inj heq).1 (by decide)
  | cons a items ih =>
    intro others r s heq
    cases others with
    | nil => exact absurd (List.cons.inj heq).1 (by decide)
    | cons b others =>
      have htail : (text a ++ restText text items) ++ r = (text b ++ restText text others) ++ s :=
        (List.cons.inj heq).2
      rw [List.append_assoc, List.append_assoc] at htail
      obtain ⟨rfl, hrest⟩ := h.splits a b _ _ (ends_rest text items r) (ends_rest text others s)
        htail
      obtain ⟨rfl, hend⟩ := ih others r s hrest
      exact ⟨rfl, hend⟩

theorem delimits_list {α : Type} {text : α → List Char} (h : Delimits text) :
    Delimits (listText text) := by
  refine ⟨fun items => ?_, fun items others r s _ _ heq => ?_⟩
  · cases items with
    | nil => exact ⟨'[', _, rfl, by decide⟩
    | cons a items => exact ⟨'[', _, rfl, by decide⟩
  · cases items with
    | nil =>
      cases others with
      | nil => exact ⟨rfl, (List.cons.inj (List.cons.inj heq).2).2⟩
      | cons b others =>
        obtain ⟨c, cs, htext, hc⟩ := h.starts b
        have htail := (List.cons.inj heq).2
        rw [htext] at htail
        exact absurd (List.cons.inj htail).1.symm hc
    | cons a items =>
      cases others with
      | nil =>
        obtain ⟨c, cs, htext, hc⟩ := h.starts a
        have htail := (List.cons.inj heq).2
        rw [htext] at htail
        exact absurd (List.cons.inj htail).1 hc
      | cons b others =>
        have htail : (text a ++ restText text items) ++ r = (text b ++ restText text others) ++ s :=
          (List.cons.inj heq).2
        rw [List.append_assoc, List.append_assoc] at htail
        obtain ⟨rfl, hrest⟩ := h.splits a b _ _ (ends_rest text items r)
          (ends_rest text others s) htail
        obtain ⟨rfl, hend⟩ := splits_rest h items others r s hrest
        exact ⟨rfl, hend⟩

end JsonText
