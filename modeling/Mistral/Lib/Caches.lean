import Mathlib.Data.List.Forall2

/-! Caches of a bounded size that forget the entry that was not used for the longest time, and functions that cache their
    results under a part of their arguments. -/

/-- The entries, the last used one first. -/
abbrev LruCache (κ β : Type) := List (κ × β)

namespace LruCache
variable {κ α β ε : Type} [DecidableEq κ]

def without (c : LruCache κ β) (k : κ) : LruCache κ β := c.filter (·.1 ≠ k)

/-- The entry is the last used one, and what is too much is forgotten. -/
def use (maxSize : Nat) (c : LruCache κ β) (k : κ) (b : β) : LruCache κ β := ((k, b) :: c.without k).take maxSize

section
variable (maxSize : Nat) (key : α → Except ε κ) (f : α → Except ε β)

/-- A call of the cached function. An exception is not cached. -/
def call (c : LruCache κ β) (a : α) : Except ε β × LruCache κ β :=
  match key a with
  | .error e => (.error e, c)
  | .ok k =>
    match c.lookup k with
    | some b => (.ok b, c.use maxSize k b)
    | none =>
      match f a with
      | .ok b => (.ok b, c.use maxSize k b)
      | .error e => (.error e, c)

/-- The results of one call after another. -/
def run : LruCache κ β → List α → List (Except ε β)
  | _, [] => []
  | c, a :: as => (c.call maxSize key f a).1 :: run (c.call maxSize key f a).2 as

/-- The calls that are answered from the cache, each with the call that has computed the result. -/
def meetings : LruCache κ α → List α → List (α × α)
  | _, [] => []
  | c, a :: as =>
    match key a with
    | .error _ => meetings c as
    | .ok k =>
      match c.lookup k with
      | some a₀ => (a₀, a) :: meetings (c.use maxSize k a₀) as
      | none =>
        match f a with
        | .ok _ => meetings (c.use maxSize k a) as
        | .error _ => meetings c as

end

variable {maxSize : Nat} {key : α → Except ε κ} {f : α → Except ε β} {k : κ}

/-- A call is answered with the result of a call that has the same key and has returned. -/
theorem of_meetings {origins : LruCache κ α} (h : ∀ o ∈ origins, key o.2 = .ok o.1 ∧ ∃ b, f o.2 = .ok b) {as : List α}
    {p : α × α} (hp : p ∈ meetings maxSize key f origins as) : ∃ k b, key p.1 = .ok k ∧ key p.2 = .ok k ∧ f p.1 = .ok b := by
  have huse : ∀ {origins : LruCache κ α} {k : κ} {a : α}, (∀ o ∈ origins, key o.2 = .ok o.1 ∧ ∃ b, f o.2 = .ok b) →
      (key a = .ok k ∧ ∃ b, f a = .ok b) → ∀ o ∈ origins.use maxSize k a, key o.2 = .ok o.1 ∧ ∃ b, f o.2 = .ok b :=
    fun h ha o ho => by
      obtain rfl | ho := List.mem_cons.mp (List.mem_of_mem_take ho)
      · exact ha
      · exact h o (List.mem_filter.mp ho).1
  induction as generalizing origins with
  | nil => cases hp
  | cons a as ih =>
    rw [meetings] at hp
    cases hkey : key a with
    | error e =>
      rw [hkey] at hp
      exact ih h hp
    | ok k =>
      simp only [hkey] at hp
      cases hlookup : origins.lookup k with
      | some a₀ =>
        simp only [hlookup] at hp
        have ha₀ : key a₀ = .ok k ∧ ∃ b, f a₀ = .ok b := by
          obtain ⟨l₁, l₂, rfl, -⟩ := List.lookup_eq_some_iff.mp hlookup
          exact h (k, a₀) (List.mem_append_right _ List.mem_cons_self)
        obtain rfl | hp := List.mem_cons.mp hp
        · obtain ⟨hk, b, hb⟩ := ha₀
          exact ⟨k, b, hk, hkey, hb⟩
        · exact ih (huse h ha₀) hp
      | none =>
        cases hf : f a with
        | error e =>
          simp only [hlookup, hf] at hp
          exact ih h hp
        | ok b =>
          simp only [hlookup, hf] at hp
          exact ih (huse h ⟨hkey, b, hf⟩) hp

/-- Each entry holds the result of the call that has made it. -/
def Holds (f : α → Except ε β) (origins : LruCache κ α) (c : LruCache κ β) : Prop :=
  List.Forall₂ (fun o e => o.1 = e.1 ∧ f o.2 = .ok e.2) origins c

theorem Holds.lookup {origins : LruCache κ α} {c : LruCache κ β} (h : Holds f origins c) (k : κ) :
    origins.lookup k = none ∧ c.lookup k = none ∨
      ∃ a b, origins.lookup k = some a ∧ c.lookup k = some b ∧ f a = .ok b := by
  induction h with
  | nil => exact .inl ⟨rfl, rfl⟩
  | @cons o e origins c head _ ih =>
    obtain ⟨k', a⟩ := o
    obtain ⟨k'', b⟩ := e
    obtain ⟨rfl, hb⟩ := head
    by_cases hk : k = k'
    · subst hk
      exact .inr ⟨a, b, by simp, by simp, hb⟩
    · have hne : (k == k') = false := beq_eq_false_iff_ne.mpr hk
      simpa only [List.lookup_cons, hne] using ih

theorem Holds.without {origins : LruCache κ α} {c : LruCache κ β} (h : Holds f origins c) :
    Holds f (origins.without k) (c.without k) := by
  induction h with
  | nil => exact .nil
  | @cons o e origins c head _ ih =>
    by_cases hk : o.1 = k
    · have hk' : e.1 = k := head.1 ▸ hk
      simpa [LruCache.without, hk, hk'] using ih
    · have hk' : e.1 ≠ k := head.1 ▸ hk
      have hcons : Holds f (o :: LruCache.without origins k) (e :: LruCache.without c k) := .cons head ih
      simpa [LruCache.without, hk, hk'] using hcons

theorem Holds.use {origins : LruCache κ α} {c : LruCache κ β} {a : α} {b : β} (h : Holds f origins c) (hb : f a = .ok b) :
    Holds f (origins.use maxSize k a) (c.use maxSize k b) :=
  List.forall₂_take maxSize (.cons ⟨rfl, hb⟩ h.without)

/-- A cached function returns what the function itself returns if and only if every call with a key that can not be computed
    raises the same, and calls that are answered from the cache have the result of the call before them. -/
theorem run_eq_map_iff {origins : LruCache κ α} {c : LruCache κ β} (h : Holds f origins c) (as : List α) :
    run maxSize key f c as = as.map f ↔
      (∀ a ∈ as, ∀ e, key a = .error e → f a = .error e) ∧
      ∀ p ∈ meetings maxSize key f origins as, f p.1 = f p.2 := by
  induction as generalizing origins c with
  | nil => simp [run, meetings]
  | cons a as ih =>
    rw [run, List.map_cons, List.cons.injEq, meetings, call, List.forall_mem_cons]
    cases hkey : key a with
    | error e =>
      simp only [Except.error.injEq, forall_eq']
      rw [ih h, and_assoc, eq_comm]
    | ok k =>
      simp only [reduceCtorEq, false_implies, implies_true, true_and]
      obtain ⟨ho, hc⟩ | ⟨a₀, b, ho, hc, hb⟩ := h.lookup k
      · simp only [ho, hc]
        cases hf : f a with
        | ok b => simpa only [true_and] using ih (h.use hf)
        | error e => simpa only [true_and] using ih h
      · simp only [ho, hc, List.forall_mem_cons]
        rw [ih (h.use hb), hb]
        exact and_left_comm

theorem keys_use {origins : LruCache κ α} {a : α} (hkeys : ∀ o ∈ origins, key o.2 = .ok o.1) (ha : key a = .ok k) :
    ∀ o ∈ origins.use maxSize k a, key o.2 = .ok o.1 := by
  intro o ho
  obtain rfl | ho := List.mem_cons.mp (List.mem_of_mem_take ho)
  · exact ha
  · exact hkeys o (List.mem_filter.mp ho).1

/-- A call returns what the function itself returns if all calls with its key do. -/
theorem getElem?_run {origins : LruCache κ α} {c : LruCache κ β} (h : Holds f origins c)
    (hkeys : ∀ o ∈ origins, key o.2 = .ok o.1) {as : List α} {i : Nat} {a : α} (ha : as[i]? = some a)
    (hsame : ∀ a' k, key a' = .ok k → key a = .ok k → f a' = f a) :
    (run maxSize key f c as)[i]? = some (key a >>= fun _ => f a) := by
  induction as generalizing origins c i with
  | nil => cases ha
  | cons a' as ih =>
    have hlook : ∀ k, key a' = .ok k → (origins.lookup k = none ∧ c.lookup k = none) ∨
        ∃ a₀ b, key a₀ = .ok k ∧ f a₀ = .ok b ∧ c.lookup k = some b := by
      intro k _
      obtain hnone | ⟨a₀, b, ho, hc, hb⟩ := h.lookup k
      · exact .inl hnone
      · obtain ⟨l₁, l₂, rfl, -⟩ := List.lookup_eq_some_iff.mp ho
        exact .inr ⟨a₀, b, hkeys (k, a₀) (List.mem_append_right _ List.mem_cons_self), hb, hc⟩
    rw [run]
    cases i with
    | zero =>
      obtain rfl : a' = a := Option.some.inj ha
      rw [List.getElem?_cons_zero, call]
      cases hkey : key a' with
      | error e => rfl
      | ok k =>
        dsimp only
        obtain ⟨-, hnone⟩ | ⟨a₀, b, hk, hb, hc⟩ := hlook k hkey
        · rw [hnone]
          dsimp only
          cases f a' <;> rfl
        · rw [hc, ← hsame a₀ k hk hkey, hb]
          rfl
    | succ i =>
      rw [List.getElem?_cons_succ, call]
      rw [List.getElem?_cons_succ] at ha
      cases hkey : key a' with
      | error e => exact ih h hkeys ha
      | ok k =>
        dsimp only
        obtain ⟨-, hnone⟩ | ⟨a₀, b, hk, hb, hc⟩ := hlook k hkey
        · rw [hnone]
          dsimp only
          cases hf : f a' with
          | error e => exact ih h hkeys ha
          | ok b => exact ih (h.use hf) (keys_use hkeys hkey) ha
        · rw [hc]
          exact ih (h.use hb) (keys_use hkeys hk) ha

end LruCache
