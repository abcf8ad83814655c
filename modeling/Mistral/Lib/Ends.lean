/-! Rules of pre- and postconditions for computations over a state that may raise an exception, where
    the changes made before the exception stay. A postcondition has two parts: one for a normal return
    and one for an exception. -/

variable {ε σ α β : Type}

/-- Run from `s`, `m` returns with a value and a state that satisfy `Q`, or raises with an exception and
    a state that satisfy `E`. -/
def Ends (m : EStateM ε σ α) (s : σ) (Q : α → σ → Prop) (E : ε → σ → Prop) : Prop :=
  match m s with
  | .ok a t => Q a t
  | .error e t => E e t

namespace Ends
variable {m : EStateM ε σ α} {f : α → EStateM ε σ β} {s : σ} {Q Q' : α → σ → Prop} {E E' : ε → σ → Prop}
  {P : β → σ → Prop}

/-! ### One rule for each way to build a computation -/

@[simp] theorem pure_iff {a : α} : Ends (pure a : EStateM ε σ α) s Q E ↔ Q a s := Iff.rfl

@[simp] theorem bind_iff : Ends (m >>= f) s P E ↔ Ends m s (fun a t => Ends (f a) t P E) E := by
  simp only [Ends, bind, EStateM.bind]
  cases m s <;> rfl

@[simp] theorem map_iff {g : α → β} : Ends (g <$> m) s P E ↔ Ends m s (fun a t => P (g a) t) E := by
  simp only [Ends, Functor.map, EStateM.map]
  cases m s <;> rfl

@[simp] theorem throw_iff {e : ε} : Ends (throw e : EStateM ε σ α) s Q E ↔ E e s := Iff.rfl

@[simp] theorem get_iff {Q : σ → σ → Prop} : Ends (get : EStateM ε σ σ) s Q E ↔ Q s s := Iff.rfl

@[simp] theorem set_iff {t : σ} {Q : PUnit → σ → Prop} : Ends (set t : EStateM ε σ PUnit) s Q E ↔ Q ⟨⟩ t := Iff.rfl

@[simp] theorem modify_iff {g : σ → σ} {Q : PUnit → σ → Prop} :
    Ends (modify g : EStateM ε σ PUnit) s Q E ↔ Q ⟨⟩ (g s) := Iff.rfl

@[simp] theorem ite_iff {c : Prop} [Decidable c] {m' : EStateM ε σ α} :
    Ends (if c then m else m') s Q E ↔ (c → Ends m s Q E) ∧ (¬c → Ends m' s Q E) := by
  split <;> simp_all

/-- A handler runs in the state that the exception leaves. -/
theorem tryCatch_apply {h : ε → EStateM ε σ α} :
    tryCatch m h s = match m s with
      | .ok a t => .ok a t
      | .error e t => h e t := by
  change EStateM.tryCatch m h s = _
  delta EStateM.tryCatch
  cases m s <;> rfl

@[simp] theorem tryCatch_iff {h : ε → EStateM ε σ α} :
    Ends (tryCatch m h) s Q E ↔ Ends m s Q fun e t => Ends (h e) t Q E := by
  simp only [Ends, tryCatch_apply]
  cases m s <;> rfl

/-! ### Consequence -/

theorem mono (h : Ends m s Q E) (hQ : ∀ a t, Q a t → Q' a t) (hE : ∀ e t, E e t → E' e t) : Ends m s Q' E' := by
  revert h
  unfold Ends
  cases m s with
  | ok a t => exact hQ a t
  | error e t => exact hE e t

theorem of_forall (hQ : ∀ a t, Q a t) (hE : ∀ e t, E e t) : Ends m s Q E := by
  unfold Ends
  split
  · exact hQ _ _
  · exact hE _ _

theorem and (h : Ends m s Q E) (h' : Ends m s Q' E') :
    Ends m s (fun a t => Q a t ∧ Q' a t) fun e t => E e t ∧ E' e t := by
  revert h h'
  unfold Ends
  cases m s with
  | ok a t => exact And.intro
  | error e t => exact And.intro

/-- Composition by specifications of the parts. -/
theorem bind (h : Ends m s Q E') (hf : ∀ a t, Q a t → Ends (f a) t P E) (hE : ∀ e t, E' e t → E e t) :
    Ends (m >>= f) s P E :=
  bind_iff.mpr (h.mono hf hE)

/-! ### Relations between the states before and after -/

/-- `m` relates the state it starts from to the state it leaves, however it ends. -/
def Keeps (R : σ → σ → Prop) (m : EStateM ε σ α) : Prop := ∀ s, Ends m s (fun _ t => R s t) fun _ t => R s t

variable {R : σ → σ → Prop}

theorem Keeps.pure (hrefl : ∀ s, R s s) (a : α) : Keeps R (pure a : EStateM ε σ α) := fun s => hrefl s

theorem Keeps.throw (hrefl : ∀ s, R s s) (e : ε) : Keeps R (throw e : EStateM ε σ α) := fun s => hrefl s

theorem Keeps.bind (htrans : ∀ {s t u}, R s t → R t u → R s u) (hm : Keeps R m) (hf : ∀ a, Keeps R (f a)) :
    Keeps R (m >>= f) := fun s =>
  Ends.bind (hm s) (fun a t hst => (hf a t).mono (fun _ _ h => htrans hst h) fun _ _ h => htrans hst h)
    fun _ _ h => h

theorem Keeps.tryCatch (htrans : ∀ {s t u}, R s t → R t u → R s u) {h : ε → EStateM ε σ α} (hm : Keeps R m)
    (hh : ∀ e, Keeps R (h e)) : Keeps R (tryCatch m h) := fun s =>
  tryCatch_iff.mpr ((hm s).mono (fun _ _ h => h)
    fun e t hst => (hh e t).mono (fun _ _ h => htrans hst h) fun _ _ h => htrans hst h)

theorem Keeps.ite {c : Prop} [Decidable c] {m' : EStateM ε σ α} (hm : Keeps R m) (hm' : Keeps R m') :
    Keeps R (if c then m else m') := by
  split
  · exact hm
  · exact hm'

/-- A loop keeps what its body keeps. -/
theorem Keeps.forM (hrefl : ∀ s, R s s) (htrans : ∀ {s t u}, R s t → R t u → R s u) {ι : Type} {l : List ι}
    {g : ι → EStateM ε σ PUnit} (hg : ∀ i ∈ l, Keeps R (g i)) : Keeps R (l.forM g) := by
  induction l with
  | nil => exact Keeps.pure hrefl _
  | cons i l ih =>
    exact Keeps.bind htrans (hg i List.mem_cons_self) fun _ => ih fun j hj => hg j (List.mem_cons_of_mem i hj)

end Ends
