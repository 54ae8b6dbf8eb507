import Mathlib.Data.List.Forall2

namespace VersionConstraints

variable {ε α β γ δ : Type _}

theorem bind_eq_ok {x : Except ε α} {f : α → Except ε β} {b : β} :
    x >>= f = .ok b ↔ ∃ a, x = .ok a ∧ f a = .ok b := by
  cases x <;> simp [bind, Except.bind]

theorem bind_eq_error {x : Except ε α} {f : α → Except ε β} {e : ε} :
    x >>= f = .error e ↔ x = .error e ∨ ∃ a, x = .ok a ∧ f a = .error e := by
  cases x <;> simp [bind, Except.bind]

theorem mapError_eq_ok {f : ε → δ} {x : Except ε α} {a : α} : x.mapError f = .ok a ↔ x = .ok a := by
  cases x <;> simp [Except.mapError]

theorem mapError_eq_error {f : ε → δ} {x : Except ε α} {d : δ} :
    x.mapError f = .error d ↔ ∃ e, x = .error e ∧ f e = d := by
  cases x <;> simp [Except.mapError]

theorem forall_ne_error {x : Except ε α} : (∀ e, x ≠ .error e) ↔ ∃ a, x = .ok a := by
  cases x <;> simp

theorem pure_eq_ok {a b : α} : (pure a : Except ε α) = .ok b ↔ a = b := by
  simp [pure, Except.pure]

-- A list is read as a whole if all its entries are.
theorem mapM_eq_ok {f : α → Except ε β} {xs : List α} {ys : List β} :
    xs.mapM f = .ok ys ↔ List.Forall₂ (fun x y => f x = .ok y) xs ys := by
  induction xs generalizing ys
  case nil => rw [List.mapM_nil, pure_eq_ok, List.forall₂_nil_left_iff, eq_comm]
  case cons x xs hi =>
    simp only [List.mapM_cons, bind_eq_ok, pure_eq_ok, hi, List.forall₂_cons_left_iff]
    grind

section Forall₂

variable {r : α → β → Prop} {p : α → Prop} {q : β → Prop}
variable {x : α} {y : β} {xs xs' : List α} {ys : List β}

theorem forall₂_append_left_iff :
    List.Forall₂ r (xs ++ xs') ys ↔
      ∃ zs zs', List.Forall₂ r xs zs ∧ List.Forall₂ r xs' zs' ∧ ys = zs ++ zs' := by
  induction xs generalizing ys
  case nil => simp [List.forall₂_nil_left_iff]
  case cons x xs hi =>
    simp only [List.cons_append, List.forall₂_cons_left_iff, hi]
    constructor
    case mp =>
      rintro ⟨y, _, hy, ⟨zs, zs', hz, hz', rfl⟩, rfl⟩
      exact ⟨y :: zs, zs', ⟨y, zs, hy, hz, rfl⟩, hz', rfl⟩
    case mpr =>
      rintro ⟨_, zs', ⟨y, zs, hy, hz, rfl⟩, hz', rfl⟩
      exact ⟨y, zs ++ zs', hy, ⟨zs, zs', hz, hz', rfl⟩, rfl⟩

theorem map_eq_map_iff_forall₂ {f : α → γ} {g : β → γ} :
    xs.map f = ys.map g ↔ List.Forall₂ (fun x y => f x = g y) xs ys := by
  rw [← List.forall₂_eq_eq_eq, List.forall₂_map_left_iff, List.forall₂_map_right_iff]

theorem exists_rel_of_mem_left (h : List.Forall₂ r xs ys) (hx : x ∈ xs) : ∃ y ∈ ys, r x y := by
  induction h
  case nil => contradiction
  case cons h _ hi =>
    cases hx
    case head => exact ⟨_, .head _, h⟩
    case tail hx =>
      have ⟨y, hy, h⟩ := hi hx
      exact ⟨y, .tail _ hy, h⟩

theorem exists_rel_of_mem_right (h : List.Forall₂ r xs ys) (hy : y ∈ ys) : ∃ x ∈ xs, r x y :=
  exists_rel_of_mem_left h.flip hy

theorem exists_mem_iff_of_forall₂ (h : List.Forall₂ r xs ys) (hr : ∀ x y, r x y → (p x ↔ q y)) :
    (∃ x ∈ xs, p x) ↔ (∃ y ∈ ys, q y) := by
  induction h
  case nil => simp
  case cons h _ hi => simp [hr _ _ h, hi]

theorem forall_mem_iff_of_forall₂ (h : List.Forall₂ r xs ys) (hr : ∀ x y, r x y → (p x ↔ q y)) :
    (∀ x ∈ xs, p x) ↔ (∀ y ∈ ys, q y) := by
  induction h
  case nil => simp
  case cons h _ hi => simp [hr _ _ h, hi]

end Forall₂

-- Whatever the first computation gives, the second gives something related to it. Where the first
-- fails, nothing is asked of the second.
def Simulates (r : α → β → Prop) (x : Except ε α) (y : Except ε β) : Prop :=
  ∀ a, x = .ok a → ∃ b, y = .ok b ∧ r a b

namespace Simulates

variable {r : α → β → Prop} {q : γ → δ → Prop} {x : Except ε α} {y : Except ε β} {a : α} {b : β}

theorem error {e : ε} : Simulates r (.error e) y :=
  nofun

theorem pure (h : r a b) : Simulates r (pure a : Except ε α) (pure b) := by
  intro c hc
  cases pure_eq_ok.mp hc
  exact ⟨b, rfl, h⟩

theorem bind {f : α → Except ε γ} {g : β → Except ε δ} (h : Simulates r x y)
    (hf : ∀ a b, r a b → Simulates q (f a) (g b)) : Simulates q (x >>= f) (y >>= g) := by
  intro c hc
  have ⟨a, ha, hc⟩ := bind_eq_ok.mp hc
  have ⟨b, hb, hr⟩ := h a ha
  have ⟨d, hd, hq⟩ := hf a b hr c hc
  exact ⟨d, bind_eq_ok.mpr ⟨b, hb, hd⟩, hq⟩

theorem mapError {f : ε → δ} (h : Simulates r x y) : Simulates r (x.mapError f) (y.mapError f) := by
  intro a ha
  have ⟨b, hb, hr⟩ := h a <| mapError_eq_ok.mp ha
  exact ⟨b, mapError_eq_ok.mpr hb, hr⟩

theorem ite {p : Prop} [Decidable p] {x' : Except ε α} {y' : Except ε β} (pos : p → Simulates r x y)
    (neg : ¬ p → Simulates r x' y') :
    Simulates r (if p then x else x') (if p then y else y') := by
  by_cases h : p
  case pos => simpa only [if_pos h] using pos h
  case neg => simpa only [if_neg h] using neg h

theorem mapM {f : γ → Except ε α} {g : γ → Except ε β} (h : ∀ t, Simulates r (f t) (g t))
    (ts : List γ) :
    Simulates (List.Forall₂ r) (ts.mapM f) (ts.mapM g) := by
  induction ts
  case nil => exact pure .nil
  case cons t ts hi =>
    simp only [List.mapM_cons]
    exact bind (h t) fun _ _ ha => bind hi fun _ _ has => pure (.cons ha has)

-- Where the second computation gives the very same.
section Eq

variable {x y : Except ε α}

theorem refl (x : Except ε α) : Simulates Eq x x :=
  fun a h => ⟨a, h, rfl⟩

theorem bind_eq {f g : α → Except ε β} (h : Simulates Eq x y) (hf : ∀ a, Simulates Eq (f a) (g a)) :
    Simulates Eq (x >>= f) (y >>= g) :=
  h.bind fun a _ he => he ▸ hf a

theorem mapM_eq {f g : γ → Except ε α} (h : ∀ t, Simulates Eq (f t) (g t)) (ts : List γ) :
    Simulates Eq (ts.mapM f) (ts.mapM g) := by
  simpa only [List.forall₂_eq_eq_eq] using mapM h ts

end Eq

end Simulates
end VersionConstraints
