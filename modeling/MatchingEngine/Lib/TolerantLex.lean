import Mathlib

/-!
# Lexicographic orders with a tolerance

Values are compared by a first key as long as their keys are not close, and by a tie-break
when they are.  Closeness is what a tolerance gives: reflexive, symmetric and convex, but not
transitive in general.

The relation is irreflexive and asymmetric whatever the closeness.  It is transitive, and then
a strict weak order, just where closeness is transitive.

## Main definitions

* `Closeness close` — what is asked of the closeness of two keys.
* `Before close key tie` — the comparison.
* `isStrictWeakOrder_iff` — when it is a strict weak order.
-/

namespace MatchingEngine.TolerantLex

variable {α κ : Type*} [LinearOrder κ] {close : κ → κ → Prop} {key : α → κ}
  {tie : α → α → Prop} {a b c : α}

/-- Every key is close to itself, and what lies between two close keys is close to both. -/
structure Closeness (close : κ → κ → Prop) : Prop where
  refl : ∀ x, close x x
  symm : ∀ x y, close x y → close y x
  between : ∀ x y z, x ≤ y → y ≤ z → close x z → close x y ∧ close y z

/-- Compare by the tie-break when the keys are close, else by the keys. -/
def Before (close : κ → κ → Prop) (key : α → κ) (tie : α → α → Prop) (a b : α) : Prop :=
  (close (key a) (key b) ∧ tie a b) ∨ (¬ close (key a) (key b) ∧ key a < key b)

theorem before_of_close (h : close (key a) (key b)) :
    Before close key tie a b ↔ tie a b := by simp [Before, h]

theorem before_of_not_close (h : ¬ close (key a) (key b)) :
    Before close key tie a b ↔ key a < key b := by simp [Before, h]

section closeness
variable (hclose : Closeness close)
include hclose

theorem irrefl [Std.Irrefl tie] : Std.Irrefl (Before close key tie) where
  irrefl a h := Std.Irrefl.irrefl a ((before_of_close (hclose.refl _)).mp h)

theorem asymm [Std.Asymm tie] : Std.Asymm (Before close key tie) where
  asymm a b hab hba := by
    by_cases h : close (key a) (key b)
    · rw [before_of_close h] at hab
      rw [before_of_close (hclose.symm _ _ h)] at hba
      exact Std.Asymm.asymm a b hab hba
    · rw [before_of_not_close h] at hab
      rw [before_of_not_close (mt (hclose.symm _ _) h)] at hba
      exact hab.asymm hba

/-- Values that are not close are comparable. -/
theorem close_of_incomparable
    (h : ¬ Before close key tie a b ∧ ¬ Before close key tie b a) :
    close (key a) (key b) := by
  by_contra hfar
  rw [before_of_not_close hfar, before_of_not_close (mt (hclose.symm _ _) hfar)] at h
  rcases lt_trichotomy (key a) (key b) with hlt | heq | hgt
  · exact h.1 hlt
  · exact hfar (heq ▸ hclose.refl _)
  · exact h.2 hgt

/-! ## Where closeness is transitive -/

section trans
variable (htrans : ∀ a b c : α, close (key a) (key b) → close (key b) (key c) →
  close (key a) (key c))
include htrans

/-- A key below another one, and not close to it, is below all keys close to that one. -/
theorem lt_of_lt_of_close (hab : ¬ close (key a) (key b)) (hlt : key a < key b)
    (hbc : close (key b) (key c)) : ¬ close (key a) (key c) ∧ key a < key c := by
  have hac : ¬ close (key a) (key c) := fun hac => hab (htrans a c b hac (hclose.symm _ _ hbc))
  refine ⟨hac, not_le.mp fun hle => hab ?_⟩
  exact hclose.symm _ _ (htrans b c a hbc (hclose.between _ _ _ hle hlt.le (hclose.symm _ _ hbc)).1)

theorem lt_of_close_of_lt (hab : close (key a) (key b)) (hbc : ¬ close (key b) (key c))
    (hlt : key b < key c) : ¬ close (key a) (key c) ∧ key a < key c := by
  have hac : ¬ close (key a) (key c) := fun hac => hbc (htrans b a c (hclose.symm _ _ hab) hac)
  refine ⟨hac, not_le.mp fun hle => hbc ?_⟩
  exact (hclose.between _ _ _ hlt.le hle (hclose.symm _ _ hab)).1

theorem isTrans [IsTrans α tie] : IsTrans α (Before close key tie) where
  trans a b c hab hbc := by
    rcases hab with ⟨hab, htie⟩ | ⟨hab, hlt⟩ <;> rcases hbc with ⟨hbc, htie'⟩ | ⟨hbc, hlt'⟩
    · exact .inl ⟨htrans a b c hab hbc, IsTrans.trans a b c htie htie'⟩
    · exact .inr (lt_of_close_of_lt hclose htrans hab hbc hlt')
    · exact .inr (lt_of_lt_of_close hclose htrans hab hlt hbc)
    · refine .inr ⟨fun hac => hab ?_, hlt.trans hlt'⟩
      exact (hclose.between _ _ _ hlt.le hlt'.le hac).1

/-- **Where closeness is transitive, the comparison is a strict weak order.** -/
theorem isStrictWeakOrder [IsStrictWeakOrder α tie] :
    IsStrictWeakOrder α (Before close key tie) where
  toIrrefl := irrefl hclose
  toIsTrans := isTrans hclose htrans
  incomp_trans a b c hab hbc := by
    have hclose_ab := close_of_incomparable hclose hab
    have hclose_bc := close_of_incomparable hclose hbc
    have hclose_ac := htrans a b c hclose_ab hclose_bc
    rw [before_of_close hclose_ab, before_of_close (hclose.symm _ _ hclose_ab)] at hab
    rw [before_of_close hclose_bc, before_of_close (hclose.symm _ _ hclose_bc)] at hbc
    rw [before_of_close hclose_ac, before_of_close (hclose.symm _ _ hclose_ac)]
    exact IsStrictWeakOrder.incomp_trans a b c hab hbc

end trans

/-! ## Where it is not -/

/-- With ties that fall any way, a comparison that is transitive has a transitive closeness:
else the ties lead back from the larger key to the smaller one. -/
theorem close_trans_of_isTrans [Std.Asymm tie] [IsTrans α (Before close key tie)]
    (hfree : ∀ a b c : α, ∃ a' b' c', key a' = key a ∧ key b' = key b ∧ key c' = key c ∧
      tie a' b' ∧ tie b' c') (a b c : α) (hab : close (key a) (key b))
    (hbc : close (key b) (key c)) : close (key a) (key c) := by
  -- The ties are chosen to put the value with the larger key first.
  have hcycle : ∀ a b c : α, close (key a) (key b) → close (key b) (key c) →
      key c ≤ key a → close (key a) (key c) := by
    intro a b c hab hbc hle
    by_contra hac
    obtain ⟨a', b', c', ha, hb, hc, htie, htie'⟩ := hfree a b c
    rw [← ha, ← hb] at hab
    rw [← hb, ← hc] at hbc
    rw [← ha, ← hc] at hac hle
    have hforth : Before close key tie a' c' :=
      IsTrans.trans a' b' c' ((before_of_close hab).mpr htie) ((before_of_close hbc).mpr htie')
    rw [before_of_not_close hac] at hforth
    exact hle.not_gt hforth
  rcases le_total (key c) (key a) with hle | hle
  · exact hcycle a b c hab hbc hle
  · exact hclose.symm _ _ (hcycle c b a (hclose.symm _ _ hbc) (hclose.symm _ _ hab) hle)

/-- **The comparison is a strict weak order just if closeness is transitive**, when ties may fall
any way. -/
theorem isStrictWeakOrder_iff [IsStrictWeakOrder α tie]
    (hfree : ∀ a b c : α, ∃ a' b' c', key a' = key a ∧ key b' = key b ∧ key c' = key c ∧
      tie a' b' ∧ tie b' c') :
    IsStrictWeakOrder α (Before close key tie) ↔
      ∀ a b c : α, close (key a) (key b) → close (key b) (key c) → close (key a) (key c) := by
  constructor
  · intro h
    have : Std.Asymm tie := inferInstance
    exact close_trans_of_isTrans hclose hfree
  · intro htrans
    exact isStrictWeakOrder hclose htrans

end closeness

end MatchingEngine.TolerantLex
