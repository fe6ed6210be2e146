import Mathlib.Tactic

set_option autoImplicit false

/-!
# Runs that may stop, fail or return

A computation over a state that returns a value, fails with an error, or stops with
no result at all. `Ends` says what holds when it does end, in either way.
-/
namespace LlmOs

abbrev Run (ε σ α : Type) := ExceptT ε (StateT σ Option) α

namespace Run

variable {ε ε' σ α β : Type}

/-- Stop unless there is a value. -/
def ofOption (x : Option α) : Run ε σ α := fun s => x.map (fun a => (.ok a, s))

/-- A change of the state that returns or fails. -/
def ofStep (f : σ → Option (Except ε α × σ)) : Run ε σ α := f

def mapError (f : ε → ε') (x : Run ε σ α) : Run ε' σ α :=
  fun s => (x s).map (fun (r, s) => (r.mapError f, s))

theorem bind_apply (x : Run ε σ α) (f : α → Run ε σ β) (s : σ) : (x >>= f) s =
    match x s with
    | none => none
    | some (.error e, s') => some (.error e, s')
    | some (.ok a, s') => f a s' := by
  change (x s).bind (fun r => ExceptT.bindCont f r.1 r.2) = _
  rcases x s with _ | ⟨_ | _, _⟩ <;> rfl

structure Ends (x : Run ε σ α) (s : σ) (ok : α → σ → Prop) (err : ε → σ → Prop) : Prop where
  returns : ∀ {a s'}, x s = some (.ok a, s') → ok a s'
  fails : ∀ {e s'}, x s = some (.error e, s') → err e s'

namespace Ends

variable {x : Run ε σ α} {s : σ} {ok mid : α → σ → Prop} {err : ε → σ → Prop}

theorem pure {a : α} (h : ok a s) : Ends (Pure.pure a : Run ε σ α) s ok err where
  returns {a' s'} hrun := by
    change some (Except.ok a, s) = some (.ok a', s') at hrun
    rw [Option.some.injEq, Prod.mk.injEq, Except.ok.injEq] at hrun
    obtain ⟨rfl, rfl⟩ := hrun
    exact h
  fails {e s'} hrun := by
    change some (Except.ok a, s) = some (.error e, s') at hrun
    simp at hrun

theorem throw {e : ε} (h : err e s) : Ends (MonadExcept.throw e : Run ε σ α) s ok err where
  returns {a' s'} hrun := by
    change some (Except.error e, s) = some (.ok a', s') at hrun
    simp at hrun
  fails {e' s'} hrun := by
    change some (Except.error e, s) = some (.error e', s') at hrun
    rw [Option.some.injEq, Prod.mk.injEq, Except.error.injEq] at hrun
    obtain ⟨rfl, rfl⟩ := hrun
    exact h

theorem ofOption {o : Option α} (h : ∀ a, o = some a → ok a s) :
    Ends (Run.ofOption o : Run ε σ α) s ok err where
  returns hrun := by
    obtain ⟨a, ha, heq⟩ := Option.map_eq_some_iff.1 hrun
    rw [Prod.mk.injEq, Except.ok.injEq] at heq
    obtain ⟨rfl, rfl⟩ := heq
    exact h a ha
  fails hrun := by
    obtain ⟨a, ha, heq⟩ := Option.map_eq_some_iff.1 hrun
    simp at heq

theorem mono {ok' : α → σ → Prop} {err' : ε → σ → Prop} (h : Ends x s ok err)
    (hok : ∀ a s', ok a s' → ok' a s') (herr : ∀ e s', err e s' → err' e s') :
    Ends x s ok' err' where
  returns hrun := hok _ _ (h.returns hrun)
  fails hrun := herr _ _ (h.fails hrun)

theorem bind {f : α → Run ε σ β} {ok : β → σ → Prop} (hx : Ends x s mid err)
    (hf : ∀ a s', mid a s' → Ends (f a) s' ok err) : Ends (x >>= f) s ok err where
  returns hrun := by
    rw [bind_apply] at hrun
    split at hrun
    · cases hrun
    · simp at hrun
    · rename_i a s₁ hfirst
      exact (hf a s₁ (hx.returns hfirst)).returns hrun
  fails hrun := by
    rw [bind_apply] at hrun
    split at hrun
    · cases hrun
    · rename_i e s₁ hfirst
      rw [Option.some.injEq, Prod.mk.injEq, Except.error.injEq] at hrun
      obtain ⟨rfl, rfl⟩ := hrun
      exact hx.fails hfirst
    · rename_i a s₁ hfirst
      exact (hf a s₁ (hx.returns hfirst)).fails hrun

theorem ofOption_bind {o : Option α} {f : α → Run ε σ β} {ok : β → σ → Prop}
    (h : ∀ a, o = some a → Ends (f a) s ok err) : Ends (Run.ofOption o >>= f) s ok err := by
  have hvalue : Ends (Run.ofOption o) s (fun a s' => s' = s ∧ o = some a) err :=
    .ofOption (fun a ha => ⟨rfl, ha⟩)
  refine hvalue.bind ?_
  rintro a _ ⟨rfl, ha⟩
  exact h a ha

theorem mapError {f : ε → ε'} {err' : ε' → σ → Prop} (h : Ends x s ok err)
    (herr : ∀ e s', err e s' → err' (f e) s') : Ends (Run.mapError f x) s ok err' where
  returns {a s'} hrun := by
    obtain ⟨⟨r, s₁⟩, hx, heq⟩ := Option.map_eq_some_iff.1 hrun
    rw [Prod.mk.injEq] at heq
    obtain ⟨hr, rfl⟩ := heq
    cases r with
    | ok b =>
      obtain rfl : b = a := Except.ok.inj hr
      exact h.returns hx
    | error e => cases hr
  fails {e' s'} hrun := by
    obtain ⟨⟨r, s₁⟩, hx, heq⟩ := Option.map_eq_some_iff.1 hrun
    rw [Prod.mk.injEq] at heq
    obtain ⟨hr, rfl⟩ := heq
    cases r with
    | ok b => cases hr
    | error e =>
      obtain rfl : f e = e' := Except.error.inj hr
      exact herr e _ (h.fails hx)

/-- An invariant of a loop, over the items that are done. -/
theorem forM {xs : List α} {f : α → Run ε σ PUnit} (inv : List α → σ → Prop) (h : inv [] s)
    (hstep : ∀ done x rest s', xs = done ++ x :: rest → inv done s' →
      Ends (f x) s' (fun _ s'' => inv (done ++ [x]) s'') err) :
    Ends (xs.forM f) s (fun _ s' => inv xs s') err := by
  suffices hall : ∀ rest done s', xs = done ++ rest → inv done s' →
      Ends (rest.forM f) s' (fun _ s'' => inv xs s'') err from hall xs [] s rfl h
  intro rest
  induction rest with
  | nil =>
    intro done s' hxs hinv
    rw [List.append_nil] at hxs
    exact .pure (hxs ▸ hinv)
  | cons x rest ih =>
    intro done s' hxs hinv
    change Ends (f x >>= fun _ => rest.forM f) s' _ _
    refine (hstep done x rest s' hxs hinv).bind (fun _ s₁ h₁ => ?_)
    exact ih (done ++ [x]) s₁ (by rw [hxs, List.append_assoc, List.singleton_append]) h₁

end Ends

end Run

end LlmOs
