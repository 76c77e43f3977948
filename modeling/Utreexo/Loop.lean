import Utreexo.Words

/-! # Loops

A loop that is modelled with fuel and that gives back its state when the fuel runs out says by
itself nothing about its end.  `runLoop` tells the two apart: it returns only if the condition
of the loop has failed.
-/
namespace Utreexo

/-- A loop, from its condition and its body. -/
def runLoop {σ : Type} (cond : σ → Bool) (body : σ → Exec σ) : Nat → σ → Exec σ
  | 0, _ => .error .diverge
  | fuel + 1, s => if cond s then body s >>= runLoop cond body fuel else .ok s

section
variable {σ τ : Type} {cond : σ → Bool} {body : σ → Exec σ}

/-- A loop with fuel whose rounds all lower a measure ends if the fuel exceeds the measure. -/
theorem runLoop_of_fuelled {f : Nat → σ → Exec τ} {out : σ → τ} {m : σ → Nat}
    (hf : ∀ fuel s, f (fuel + 1) s = if cond s then body s >>= f fuel else .ok (out s))
    (hm : ∀ s s', cond s = true → body s = .ok s' → m s' < m s) {fuel : Nat} {s : σ} {r : τ}
    (hlt : m s < fuel) (h : f fuel s = .ok r) :
    ∃ t, runLoop cond body fuel s = .ok t ∧ out t = r := by
  induction fuel generalizing s with
  | zero => omega
  | succ fuel ih =>
    rw [hf] at h
    rw [runLoop]
    by_cases hc : cond s = true
    · rw [if_pos hc] at h ⊢
      obtain ⟨s', hs', h'⟩ := Exec.bind_eq_ok.mp h
      have hdec := hm s s' hc hs'
      obtain ⟨t, ht, hout⟩ := ih (show m s' < fuel by omega) h'
      exact ⟨t, by rw [hs', Exec.ok_bind, ht], hout⟩
    · rw [if_neg hc] at h ⊢
      cases h
      exact ⟨s, rfl, rfl⟩

end

end Utreexo
