import Mathlib.Data.List.Flatten
import Mathlib.Data.Nat.Find
import Mistral.Engine.PostTxQueue

/-! Operations after a transaction run once. An attempt of a queue stops at the first transactional operation that
    raises, and a retry starts over with the first operation. -/

namespace Mistral

variable {q : List Operation} {op : Operation} {n r : Nat}

/-! ### Counting -/

/-- The attempt calls the operation in place `i`. -/
def Attempt.calls (a : Attempt) (i : Nat) : Bool := i < a.called

/-- The call of `op` in place `i` returns. -/
def Attempt.commits (a : Attempt) (i : Nat) (op : Operation) : Bool := a.calls i && op.ending a.number == .returns

def calls (q : List Operation) (i : Nat) : Nat := (processQueue q).1.countP (·.calls i)

def commits (q : List Operation) (i : Nat) (op : Operation) : Nat := (processQueue q).1.countP (·.commits i op)

/-- A call of `op` in place `i` ended with an error that is not retried. -/
def Failed (q : List Operation) (i : Nat) (op : Operation) : Prop :=
  ∃ a ∈ (processQueue q).1, a.calls i ∧ op.ending a.number = .fails

/-- What the operations register that commit in attempt `n`. -/
def committed (n : Nat) (q : List Operation) : List Operation :=
  (q.filter fun op => op.inTx && op.ending n == .returns).flatMap (·.registers n)

/-- What the transactional operations registered that committed in any attempt. -/
def registered (q : List Operation) : List Operation :=
  (processQueue q).1.flatMap fun a => committed a.number (q.take a.called)

/-- Every operation that is not transactional is called once, every transactional one commits once unless it fails
    with an error that is not retried, and what committed operations registered is handed to the next thread. -/
structure RunsOnce (q : List Operation) : Prop where
  called : ∀ i op, q[i]? = some op → op.inTx = false → calls q i = 1
  transactional : ∀ i op, q[i]? = some op → op.inTx → commits q i op = 1 ∨ commits q i op = 0 ∧ Failed q i op
  handed : (registered q).Sublist (processQueue q).2

/-- Only the first operation of the queue has errors that are retried, fewer than 50 in a row; only the last one has
    another error, and then no transactional operation before it registers anything. -/
def Undisturbed (q : List Operation) : Prop :=
  ∃ r < maxAttempts, (∀ op, q[0]? = some op → ∀ n < r, op.inTx ∧ op.ending n = .dbError) ∧ (q = [] → r = 0) ∧
    (∀ op ∈ q, op.inTx → op.ending r ≠ .dbError) ∧
    ∀ i op, q[i]? = some op → op.inTx → op.ending r = .fails → i + 1 = q.length ∧ committed r q = []

/-! ### One attempt -/

theorem number_processOperations : (processOperations n q).number = n := by
  induction q with
  | nil => rfl
  | cons op ops ih =>
    unfold processOperations
    split
    · rfl
    · exact ih

/-- An attempt gets through the queue, or stops at the first operation that raises. -/
theorem processOperations_cases (n : Nat) (q : List Operation) :
    ((∀ op ∈ q, op.raises n = false) ∧ (processOperations n q).ending = .returns ∧
      (processOperations n q).called = q.length ∧ (processOperations n q).nested = q.flatMap (·.registers n)) ∨
    ∃ before op after, q = before ++ op :: after ∧ (∀ x ∈ before, x.raises n = false) ∧ op.raises n ∧
      (processOperations n q).ending = op.ending n ∧ (processOperations n q).called = before.length + 1 := by
  induction q with
  | nil => exact .inl ⟨by simp, rfl, rfl, rfl⟩
  | cons op ops ih =>
    by_cases hop : op.raises n
    · refine .inr ⟨[], op, ops, rfl, by simp, hop, ?_, ?_⟩ <;> simp [processOperations, hop]
    · simp only [processOperations, hop, Bool.false_eq_true, if_false]
      have hop : op.raises n = false := by simpa using hop
      rcases ih with ⟨hall, hend, hcalled, hnested⟩ | ⟨before, x, after, rfl, hbefore, hx, hend, hcalled⟩
      · exact .inl ⟨by simpa [hop] using hall, hend, by simp [hcalled], by simp [hnested]⟩
      · exact .inr ⟨op :: before, x, after, rfl, by simpa [hop] using hbefore, hx, hend, by simp [hcalled]⟩

theorem Operation.raises_iff : op.raises n = true ↔ op.inTx ∧ (op.ending n = .dbError ∨ op.ending n = .fails) := by
  cases h : op.ending n <;> simp [Operation.raises, h]

theorem Operation.returns_of_not_raises (h : op.raises n = false) (htx : op.inTx) : op.ending n = .returns := by
  simpa [Operation.raises, htx] using h

/-! ### The attempts of a queue -/

/-- An attempt that only the first operation gets to, and that is retried. -/
def firstOnly (op : Operation) (n : Nat) : Attempt := ⟨n, 1, op.registers n, .dbError⟩

/-- While the first operation ends with a database error, the attempts call nothing else. -/
theorem retryQueue_first {op : Operation} (ops : List Operation) :
    ∀ (r left n : Nat), (∀ k < r, op.inTx ∧ op.ending (n + k) = .dbError) →
      retryQueue (op :: ops) (left + r) n =
        ((List.range' n r).map (firstOnly op) ++ (retryQueue (op :: ops) left (n + r)).1,
          (retryQueue (op :: ops) left (n + r)).2) := by
  intro r
  induction r with
  | zero => intro left n _; simp
  | succ r ih =>
    intro left n h
    have hfirst : op.inTx ∧ op.ending n = .dbError := by simpa using h 0 (by omega)
    have hraise : op.raises n = true := Operation.raises_iff.mpr ⟨hfirst.1, .inl hfirst.2⟩
    rw [← Nat.add_assoc, retryQueue]
    simp only [processOperations, hraise, if_true, hfirst.2]
    rw [ih left (n + 1) fun k hk => by simpa [Nat.add_assoc, Nat.add_comm 1 k] using h (k + 1) (by omega)]
    simp [List.range'_succ, Nat.add_assoc, Nat.add_comm 1 r, firstOnly]

/-- The attempts before number `r`, and the rest. -/
theorem processQueue_eq {op : Operation} (ops : List Operation) (hr : r < maxAttempts)
    (h : ∀ k < r, op.inTx ∧ op.ending k = .dbError) :
    processQueue (op :: ops) = ((List.range' 0 r).map (firstOnly op) ++ (retryQueue (op :: ops) (maxAttempts - r) r).1,
      (retryQueue (op :: ops) (maxAttempts - r) r).2) := by
  have := retryQueue_first ops r (maxAttempts - r) 0 (by simpa using h)
  rw [Nat.sub_add_cancel (Nat.le_of_lt hr)] at this
  simpa [processQueue] using this

theorem retryQueue_succ (hr : r < maxAttempts) : retryQueue q (maxAttempts - r) r =
    match (processOperations r q).ending with
    | .returns => ([processOperations r q], (processOperations r q).nested)
    | .fails => ([processOperations r q], [])
    | .dbError => (processOperations r q :: (retryQueue q (maxAttempts - (r + 1)) (r + 1)).1,
        (retryQueue q (maxAttempts - (r + 1)) (r + 1)).2) := by
  obtain ⟨left, hleft⟩ : ∃ left, maxAttempts - r = left + 1 := ⟨maxAttempts - r - 1, by omega⟩
  rw [hleft, show maxAttempts - (r + 1) = left by omega]
  cases hend : (processOperations r q).ending <;> simp only [retryQueue, hend]

/-! ### Undisturbed queues -/

section
variable {op : Operation} {ops : List Operation}

/-- The attempts of the first operation call it, but none of its calls returns. -/
theorem countP_firsts (i : Nat) : ((List.range' 0 r).map (firstOnly op)).countP (·.calls i) = if i = 0 then r else 0 := by
  rw [List.countP_map]
  split
  next h =>
    subst h
    rw [List.countP_eq_length.mpr (by simp [firstOnly, Attempt.calls])]
    simp
  next h => exact List.countP_eq_zero.mpr (by simp [firstOnly, Attempt.calls, h])

theorem commits_firsts {i : Nat} {x : Operation} (hx : (op :: ops)[i]? = some x)
    (h : ∀ k < r, op.inTx ∧ op.ending k = .dbError) :
    ((List.range' 0 r).map (firstOnly op)).countP (·.commits i x) = 0 := by
  rw [List.countP_map]
  refine List.countP_eq_zero.mpr fun k hk => ?_
  have hk : k < r := by simpa using hk
  cases i with
  | zero =>
    obtain rfl : op = x := by simpa using hx
    simp [firstOnly, Attempt.commits, (h k hk).2]
  | succ i => simp [firstOnly, Attempt.commits, Attempt.calls]

theorem registered_firsts (h : ∀ k < r, op.inTx ∧ op.ending k = .dbError) :
    ((List.range' 0 r).map (firstOnly op)).flatMap (fun a => committed a.number ((op :: ops).take a.called)) = [] := by
  rw [List.flatMap_map]
  refine List.flatMap_eq_nil_iff.mpr fun k hk => ?_
  have hk : k < r := by simpa using hk
  simp [firstOnly, committed, (h k hk).2]

/-- A queue whose last attempt gets to every operation. -/
theorem runsOnce_of_last {next : List Operation} (h : ∀ k < r, op.inTx ∧ op.ending k = .dbError)
    (heq : processQueue (op :: ops) = ((List.range' 0 r).map (firstOnly op) ++ [processOperations r (op :: ops)], next))
    (hcalled : (processOperations r (op :: ops)).called = (op :: ops).length)
    (hend : ∀ x ∈ op :: ops, x.inTx → x.ending r = .returns ∨ x.ending r = .fails)
    (hnext : (committed r (op :: ops)).Sublist next) : RunsOnce (op :: ops) where
  called i x hx htx := by
    have hi : (processOperations r (op :: ops)).calls i = true := by
      simpa [Attempt.calls, hcalled] using (List.getElem?_eq_some_iff.mp hx).1
    rw [calls, heq, List.countP_append, countP_firsts, List.countP_singleton, hi]
    split
    next h0 =>
      subst h0
      obtain rfl : op = x := by simpa using hx
      rcases Nat.eq_zero_or_pos r with rfl | hr
      · rfl
      · have := (h 0 hr).1
        simp [htx] at this
    · rfl
  transactional i x hx htx := by
    have hi : (processOperations r (op :: ops)).calls i = true := by
      simpa [Attempt.calls, hcalled] using (List.getElem?_eq_some_iff.mp hx).1
    have hcommits : commits (op :: ops) i x = if x.ending r = .returns then 1 else 0 := by
      rw [commits, heq, List.countP_append, commits_firsts hx h, List.countP_singleton]
      simp only [Attempt.commits, hi, Bool.true_and, number_processOperations, beq_iff_eq, Nat.zero_add]
    rw [hcommits]
    rcases hend x (List.mem_of_getElem? hx) htx with hx' | hx'
    · exact .inl (by simp [hx'])
    · refine .inr ⟨by simp [hx'], processOperations r (op :: ops), by simp [heq], hi, ?_⟩
      rw [number_processOperations, hx']
  handed := by
    simp only [registered, heq, List.flatMap_append, registered_firsts h, List.nil_append, List.flatMap_cons,
      List.flatMap_nil, List.append_nil, number_processOperations, hcalled, List.take_length]
    exact hnext

theorem runsOnce_of_undisturbed (h : Undisturbed q) : RunsOnce q := by
  obtain ⟨r, hr, hfirst, -, hdb, hfails⟩ := h
  cases q with
  | nil => exact ⟨by simp, by simp, by simp [registered, processQueue, retryQueue, maxAttempts, processOperations, committed]⟩
  | cons op ops =>
    have hfirst := hfirst op rfl
    have heq := processQueue_eq ops hr hfirst
    rw [retryQueue_succ hr] at heq
    have hend : ∀ x ∈ op :: ops, x.inTx → x.ending r = .returns ∨ x.ending r = .fails := fun x hx htx => by
      have := hdb x hx htx
      cases h : x.ending r <;> simp_all
    rcases processOperations_cases r (op :: ops) with ⟨hall, hret, hcalled, hnested⟩ | ⟨before, x, after, hq, -, hx, hret, hcalled⟩
    · rw [hret] at heq
      refine runsOnce_of_last hfirst heq hcalled hend ?_
      rw [hnested]
      exact List.Sublist.flatMap List.filter_sublist _
    · obtain ⟨htx, hor⟩ := Operation.raises_iff.mp hx
      have hmem : x ∈ op :: ops := by rw [hq]; simp
      have hxf : x.ending r = .fails := hor.resolve_left (hdb x hmem htx)
      rw [hret, hxf] at heq
      obtain ⟨hlast, hnone⟩ := hfails before.length x (by rw [hq]; simp) htx hxf
      exact runsOnce_of_last hfirst heq (hcalled.trans hlast) hend (by simp [hnone])

/-! ### Queues that run once -/

theorem mem_retryQueue {a : Attempt} {left : Nat} (h : a ∈ (retryQueue q left n).1) : ∃ m, a = processOperations m q := by
  induction left generalizing n with
  | zero => cases h
  | succ left ih =>
    rw [retryQueue] at h
    dsimp only at h
    split at h
    · exact ⟨n, List.mem_singleton.mp h⟩
    · exact ⟨n, List.mem_singleton.mp h⟩
    · rcases List.mem_cons.mp h with rfl | h
      · exact ⟨n, rfl⟩
      · exact ih h

/-- An attempt that gets past the first operation has called it without an exception. -/
theorem not_raises_of_calls {i : Nat} (h : (processOperations n (op :: ops)).calls (i + 1)) : op.raises n = false := by
  by_cases hop : op.raises n
  · simp [processOperations, hop, Attempt.calls] at h
  · simpa using hop

theorem two_le_countP {α : Type} {p : α → Bool} {l l' : List α} {a b : α} (ha : p a) (hb : b ∈ l') (hpb : p b) :
    2 ≤ (l ++ a :: l').countP p := by
  have : 0 < l'.countP p := List.countP_pos_iff.mpr ⟨b, hb, hpb⟩
  rw [List.countP_append, List.countP_cons, if_pos ha]
  omega

/-- An operation that runs once is called by an attempt that does not end its call with a database error. -/
theorem RunsOnce.exists_attempt (h : RunsOnce q) {i : Nat} {x : Operation} (hx : q[i]? = some x) :
    ∃ a ∈ (processQueue q).1, a.calls i ∧ (x.inTx → x.ending a.number ≠ .dbError) := by
  cases htx : x.inTx with
  | false =>
    have hpos : 0 < (processQueue q).1.countP (·.calls i) := by rw [← calls, h.called i x hx htx]; omega
    obtain ⟨a, ha, hc⟩ := List.countP_pos_iff.mp hpos
    exact ⟨a, ha, hc, nofun⟩
  | true =>
    rcases h.transactional i x hx htx with hc | ⟨-, a, ha, hc, hf⟩
    · have hpos : 0 < (processQueue q).1.countP (·.commits i x) := by rw [← commits, hc]; omega
      obtain ⟨a, ha, hc⟩ := List.countP_pos_iff.mp hpos
      simp only [Attempt.commits, Bool.and_eq_true, beq_iff_eq] at hc
      exact ⟨a, ha, hc.1, fun _ => by simp [hc.2]⟩
    · exact ⟨a, ha, hc, fun _ => by simp [hf]⟩

/-- The attempt that gets past the first operation does not end with a database error. -/
theorem RunsOnce.ending_ne_dbError (h : RunsOnce (op :: ops)) (hr : r < maxAttempts)
    (hfirst : ∀ k < r, op.inTx ∧ op.ending k = .dbError) (hop : ¬(op.inTx ∧ op.ending r = .dbError)) :
    (processOperations r (op :: ops)).ending ≠ .dbError := by
  intro hdb
  have heq := processQueue_eq ops hr hfirst
  rw [retryQueue_succ hr, hdb] at heq
  rcases processOperations_cases r (op :: ops) with ⟨-, hret, -, -⟩ | ⟨before, x, after, hq, hbefore, hx, hret, hcalled⟩
  · simp [hret] at hdb
  obtain ⟨htx, -⟩ := Operation.raises_iff.mp hx
  cases before with
  | nil =>
    obtain ⟨rfl, -⟩ := List.cons.inj hq
    exact hop ⟨htx, hret ▸ hdb⟩
  | cons y before =>
    obtain ⟨rfl, -⟩ := List.cons.inj hq
    obtain ⟨a, ha, hcall, hend⟩ := h.exists_attempt (i := before.length + 1) (x := x) (by rw [hq]; simp)
    have hlater : a ∈ (retryQueue (op :: ops) (maxAttempts - (r + 1)) (r + 1)).1 := by
      rw [heq] at ha
      rcases List.mem_append.mp ha with ha | ha
      · obtain ⟨k, -, rfl⟩ := List.mem_map.mp ha
        simp [firstOnly, Attempt.calls] at hcall
      · rcases List.mem_cons.mp ha with rfl | ha
        · rw [number_processOperations] at hend
          exact absurd (hret ▸ hdb) (hend htx)
        · exact ha
    -- Both attempts get past the first operation.
    obtain ⟨m, rfl⟩ := mem_retryQueue hlater
    have hpass : op.raises m = false := not_raises_of_calls hcall
    have hpass' : op.raises r = false := hbefore op List.mem_cons_self
    have hcall₀ : (processOperations m (op :: ops)).calls 0 = true := by
      simp only [Attempt.calls, decide_eq_true_eq] at hcall ⊢
      omega
    have hcall₁ : (processOperations r (op :: ops)).calls 0 = true := by simp [Attempt.calls, hcalled]
    cases hop0 : op.inTx with
    | false =>
      have htwo := two_le_countP (p := (·.calls 0)) (l := (List.range' 0 r).map (firstOnly op)) hcall₁ hlater hcall₀
      have hone := h.called 0 op rfl hop0
      simp only [calls, heq] at hone
      omega
    | true =>
      have hc : ∀ k, op.raises k = false → (processOperations k (op :: ops)).calls 0 = true →
          (processOperations k (op :: ops)).commits 0 op = true := fun k hk hcall => by
        simp [Attempt.commits, hcall, number_processOperations, Operation.returns_of_not_raises hk hop0]
      have htwo := two_le_countP (p := (·.commits 0 op)) (l := (List.range' 0 r).map (firstOnly op)) (hc r hpass' hcall₁)
        hlater (hc m hpass hcall₀)
      rcases h.transactional 0 op rfl hop0 with hone | ⟨hone, -⟩
      · simp only [commits, heq] at hone
        omega
      · simp only [commits, heq] at hone
        omega

/-- An operation that fails for good is the last one, and its queue hands on nothing. -/
theorem RunsOnce.last_of_fails (h : RunsOnce (op :: ops)) (hr : r < maxAttempts)
    (hfirst : ∀ k < r, op.inTx ∧ op.ending k = .dbError) (hf : (processOperations r (op :: ops)).ending = .fails) :
    (processOperations r (op :: ops)).called = (op :: ops).length ∧ committed r (op :: ops) = [] := by
  have heq := processQueue_eq ops hr hfirst
  rw [retryQueue_succ hr, hf] at heq
  have hall : (processOperations r (op :: ops)).called = (op :: ops).length := by
    rcases processOperations_cases r (op :: ops) with ⟨-, -, hcalled, -⟩ | ⟨before, x, after, hq, -, -, -, hcalled⟩
    · exact hcalled
    cases after with
    | nil => rw [hcalled, hq, List.length_append, List.length_singleton]
    | cons y after =>
      obtain ⟨a, ha, hcall, -⟩ := h.exists_attempt (i := before.length + 1) (x := y) (by rw [hq]; simp)
      rw [heq] at ha
      rcases List.mem_append.mp ha with ha | ha
      · obtain ⟨k, -, rfl⟩ := List.mem_map.mp ha
        simp [firstOnly, Attempt.calls] at hcall
      · obtain rfl := List.mem_singleton.mp ha
        simp [Attempt.calls, hcalled] at hcall
  refine ⟨hall, ?_⟩
  have hhanded := h.handed
  simp only [registered, heq, List.flatMap_append, registered_firsts hfirst, List.nil_append, List.flatMap_cons,
    List.flatMap_nil, List.append_nil, number_processOperations, hall, List.take_length] at hhanded
  exact List.sublist_nil.mp hhanded

theorem undisturbed_of_runsOnce (h : RunsOnce q) : Undisturbed q := by
  cases q with
  | nil => exact ⟨0, by simp [maxAttempts], by simp, by simp, by simp, by simp⟩
  | cons op ops =>
    by_cases hex : ∃ r, r < maxAttempts ∧ ¬(op.inTx ∧ op.ending r = .dbError)
    case neg =>
      have hex : ∀ k < maxAttempts, op.inTx ∧ op.ending k = .dbError := fun k hk =>
        Classical.not_not.mp fun hne => hex ⟨k, hk, hne⟩
      have heq := retryQueue_first ops maxAttempts 0 0 fun k hk => by simpa using hex k hk
      obtain ⟨a, ha, hcall, hend⟩ := h.exists_attempt (i := 0) (x := op) rfl
      simp only [Nat.zero_add, retryQueue, List.append_nil] at heq
      rw [processQueue, heq] at ha
      obtain ⟨k, hk, rfl⟩ := List.mem_map.mp ha
      have hk := hex k (by simpa using hk)
      exact absurd hk.2 (hend hk.1)
    case pos =>
      obtain ⟨hr, hop⟩ := Nat.find_spec hex
      have hfirst : ∀ k < Nat.find hex, op.inTx ∧ op.ending k = .dbError := fun k hk => by
        exact Classical.not_not.mp fun hne => Nat.find_min hex hk ⟨Nat.lt_trans hk hr, hne⟩
      generalize Nat.find hex = r at hr hop hfirst
      have hne := h.ending_ne_dbError hr hfirst hop
      refine ⟨r, hr, fun x hx => by cases hx; exact hfirst, nofun, fun x hx htx hdb => ?_, fun i x hx htx hf => ?_⟩
      · rcases processOperations_cases r (op :: ops) with ⟨hall, -⟩ | ⟨before, y, after, hq, hbefore, hy, hret, hcalled⟩
        · simpa [hdb] using Operation.returns_of_not_raises (hall x hx) htx
        · have hyf : (processOperations r (op :: ops)).ending = .fails := by
            rcases (Operation.raises_iff.mp hy).2 with h' | h'
            · exact absurd (hret.trans h') hne
            · exact hret.trans h'
          have hlast := (h.last_of_fails hr hfirst hyf).1
          have hafter : after = [] := by
            rw [hcalled, hq] at hlast
            simpa using hlast
          rw [hq, hafter] at hx
          rcases List.mem_append.mp hx with hx | hx
          · simpa [hdb] using Operation.returns_of_not_raises (hbefore x hx) htx
          · obtain rfl := List.mem_singleton.mp hx
            rw [hret, hdb] at hyf
            cases hyf
      · rcases processOperations_cases r (op :: ops) with ⟨hall, -⟩ | ⟨before, y, after, hq, hbefore, hy, hret, hcalled⟩
        · simpa [hf] using Operation.returns_of_not_raises (hall x (List.mem_of_getElem? hx)) htx
        · have hyf : (processOperations r (op :: ops)).ending = .fails := by
            rcases (Operation.raises_iff.mp hy).2 with h' | h'
            · exact absurd (hret.trans h') hne
            · exact hret.trans h'
          obtain ⟨hlast, hnone⟩ := h.last_of_fails hr hfirst hyf
          refine ⟨?_, hnone⟩
          have hi : i < (op :: ops).length := (List.getElem?_eq_some_iff.mp hx).1
          by_cases hlt : i < before.length
          · rw [hq, List.getElem?_append_left hlt] at hx
            simpa [hf] using Operation.returns_of_not_raises (hbefore x (List.mem_of_getElem? hx)) htx
          · omega

end

/-- Every queue of the threads that follow one another runs once if and only if every one of them is undisturbed. -/
theorem post_tx_operations_run_once (q : List Operation) :
    (∀ n, RunsOnce (generation q n)) ↔ ∀ n, Undisturbed (generation q n) :=
  ⟨fun h n => undisturbed_of_runsOnce (h n), fun h n => runsOnce_of_undisturbed (h n)⟩

/-! ### A deadlock after a message -/

/-- A message, and a transactional operation that ends with a deadlock the first time. -/
def messageThenDeadlock : List Operation :=
  [.mk false (fun _ => .returns) fun _ => [], .mk true (fun n => if n = 0 then .dbError else .returns) fun _ => []]

/-- The retry sends the message again. -/
theorem deadlock_repeats_message : ¬∀ n, RunsOnce (generation messageThenDeadlock n) := by
  intro h
  have := (h 0).called 0 (.mk false (fun _ => .returns) fun _ => []) rfl rfl
  revert this
  decide

end Mistral
