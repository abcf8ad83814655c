import Mathlib.Logic.Relation
import Mathlib.Order.Lattice

/-! Values that transactions share under READ COMMITTED, and the cycles of transactions that wait for one another. -/

/-- A stored value: what is committed, and what a transaction wrote that has not ended. A statement that writes waits
    until no other transaction has such a write. -/
structure Cell (τ α : Type) where
  committed : α
  pending : Option (τ × α) := none
  deriving DecidableEq, Repr

namespace Cell
variable {τ α : Type} [DecidableEq τ] (c : Cell τ α) (t : τ)

/-- What a statement of `t` reads: its own write, or else what is committed when the statement runs. -/
def read : α :=
  match c.pending with
  | some (u, v) => if u = t then v else c.committed
  | none => c.committed

/-- A write of `t` waits for `u`. -/
def Blocks (u : τ) : Prop := u ≠ t ∧ c.pending.map Prod.fst = some u

instance (u : τ) : Decidable (c.Blocks t u) := inferInstanceAs (Decidable (_ ∧ _))

/-- The transaction that a write of `t` waits for. -/
def blocker : Option τ := (c.pending.map Prod.fst).filter (· ≠ t)

def write (v : α) : Cell τ α := { c with pending := some (t, v) }

def commit : Cell τ α := if c.pending.map Prod.fst = some t then ⟨c.read t, none⟩ else c

def rollback : Cell τ α := if c.pending.map Prod.fst = some t then ⟨c.committed, none⟩ else c

variable {c t} {u : τ} {v : α}

@[simp] theorem blocker_eq_some_iff : c.blocker t = some u ↔ c.Blocks t u := by
  simp [blocker, Blocks, Option.filter_eq_some_iff, and_comm]

theorem read_of_pending (h : c.pending = some (t, v)) : c.read t = v := by simp [read, h]

theorem read_of_none (h : c.pending = none) : c.read t = c.committed := by simp [read, h]

theorem read_of_ne (h : c.pending = some (u, v)) (hne : u ≠ t) : c.read t = c.committed := by simp [read, h, hne]

@[simp] theorem read_write : (c.write t v).read t = v := by simp [write, read]

theorem read_write_of_free (hfree : ∀ w, ¬c.Blocks u w) (hne : t ≠ u) : (c.write u v).read t = c.read t := by
  rcases h : c.pending with _ | ⟨w, x⟩
  · simp [write, read, h, Ne.symm hne]
  · have hw : w = u := by
      by_contra hw
      exact hfree w ⟨hw, by simp [h]⟩
    subst hw
    simp [write, read, h, Ne.symm hne]

/-- A transaction that commits leaves what it read. -/
theorem committed_commit : (c.commit t).committed = c.read t := by
  unfold commit
  split
  · rfl
  next h =>
    rcases hp : c.pending with _ | ⟨w, x⟩
    · rw [read_of_none hp]
    · rw [read_of_ne hp fun he => h (by simp [hp, he])]

theorem pending_commit (hp : (c.commit t).pending = some (u, v)) : c.pending = some (u, v) ∧ u ≠ t := by
  unfold commit at hp
  split at hp
  · cases hp
  next h => exact ⟨hp, fun he => h (by simp [hp, he])⟩

theorem pending_rollback (hp : (c.rollback t).pending = some (u, v)) : c.pending = some (u, v) ∧ u ≠ t := by
  unfold rollback at hp
  split at hp
  · cases hp
  next h => exact ⟨hp, fun he => h (by simp [hp, he])⟩

@[simp] theorem committed_rollback : (c.rollback t).committed = c.committed := by
  unfold rollback
  split <;> rfl

theorem read_rollback (hne : u ≠ t) : (c.rollback t).read u = c.read u := by
  unfold rollback
  split
  next h =>
    rcases hp : c.pending with _ | ⟨w, x⟩
    · simp [hp] at h
    · simp only [hp, Option.map_some, Option.some.injEq] at h
      subst h
      rw [read_of_ne hp (Ne.symm hne), read_of_none rfl]
  · rfl

theorem commit_of_ne (h : c.pending.map Prod.fst ≠ some t) : c.commit t = c := by simp [commit, h]

theorem rollback_of_ne (h : c.pending.map Prod.fst ≠ some t) : c.rollback t = c := by simp [rollback, h]

theorem commit_of_pending (h : c.pending = some (t, v)) : c.commit t = ⟨v, none⟩ := by simp [commit, h, read]

/-- A cell that has a write pending after a commit is not one that the transaction wrote. -/
theorem commit_of_pending_commit (h : (c.commit t).pending ≠ none) : c.commit t = c := by
  unfold commit at h ⊢
  split at h
  · exact absurd rfl h
  next hne => rw [if_neg hne]

theorem rollback_of_pending_rollback (h : (c.rollback t).pending ≠ none) : c.rollback t = c := by
  unfold rollback at h ⊢
  split at h
  · exact absurd rfl h
  next hne => rw [if_neg hne]

/-- Nothing of a transaction is pending after its end. -/
theorem read_commit : (c.commit t).read t = c.read t := by
  unfold commit
  split
  · exact read_of_none rfl
  · rfl

/-! ### The write of one transaction -/

variable (c t) in
/-- What `t` has written and not committed. -/
def own : Option α :=
  match c.pending with
  | some (u, v) => if u = t then some v else none
  | none => none

theorem own_eq_some_iff : c.own t = some v ↔ c.pending = some (t, v) := by
  rcases hp : c.pending with _ | ⟨w, x⟩
  · simp [own, hp]
  · simp only [own, hp, Option.some.injEq, Prod.mk.injEq]
    split <;> simp_all

theorem read_of_own (h : c.own t = some v) : c.read t = v := read_of_pending (own_eq_some_iff.mp h)

theorem read_of_own_none (h : c.own t = none) : c.read t = c.committed := by
  rcases hp : c.pending with _ | ⟨w, x⟩
  · exact read_of_none hp
  · exact read_of_ne hp fun hw => by simp [own, hp, hw] at h

theorem free_of_own (h : c.own t = some v) : c.blocker t = none := by
  simp [blocker, own_eq_some_iff.mp h]

theorem pending_of_free (hfree : c.blocker t = none) (hown : c.own t = none) : c.pending = none := by
  rcases hp : c.pending with _ | ⟨w, x⟩
  · rfl
  · by_cases hw : w = t <;> simp [blocker, own, hp, hw] at hfree hown

@[simp] theorem own_write : (c.write t v).own t = some v := by simp [own, write]

theorem own_write_of_ne (hfree : c.blocker u = none) (hne : t ≠ u) : (c.write u v).own t = c.own t := by
  rcases hp : c.pending with _ | ⟨w, x⟩
  · simp [own, write, hp, Ne.symm hne]
  · obtain rfl : w = u := by simpa [blocker, hp] using hfree
    simp [own, write, hp, Ne.symm hne]

@[simp] theorem own_commit : (c.commit t).own t = none := by
  rcases h : (c.commit t).own t with _ | x
  · rfl
  · exact absurd rfl (pending_commit (own_eq_some_iff.mp h)).2

@[simp] theorem own_rollback : (c.rollback t).own t = none := by
  rcases h : (c.rollback t).own t with _ | x
  · rfl
  · exact absurd rfl (pending_rollback (own_eq_some_iff.mp h)).2

theorem own_commit_of_ne (hne : t ≠ u) : (c.commit u).own t = c.own t := by
  unfold commit
  split
  next h =>
    obtain ⟨⟨w, x⟩, hp, rfl⟩ := Option.map_eq_some_iff.mp h
    simp [own, hp, Ne.symm hne]
  · rfl

theorem own_rollback_of_ne (hne : t ≠ u) : (c.rollback u).own t = c.own t := by
  unfold rollback
  split
  next h =>
    obtain ⟨⟨w, x⟩, hp, rfl⟩ := Option.map_eq_some_iff.mp h
    simp [own, hp, Ne.symm hne]
  · rfl

/-- The commit of one transaction does not touch a value that another one has written. -/
theorem committed_commit_of_own (h : c.own t = some v) (hne : t ≠ u) : (c.commit u).committed = c.committed := by
  rw [committed_commit, read_of_ne (own_eq_some_iff.mp h) hne]

end Cell

/-- A row of a table; its content is `none` where it is not inserted. -/
structure Row (τ α : Type) where
  key : String
  cell : Cell τ (Option α)
  deriving DecidableEq, Repr

/-- The row is inserted, maybe by a transaction that has not ended. -/
def Row.Live {τ α : Type} (row : Row τ α) : Prop := row.cell.committed ≠ none ∨ row.cell.pending ≠ none

namespace Row
variable {τ α : Type} [DecidableEq τ] {row : Row τ α} {t u : τ}

theorem Live.of_commit (h : ({ row with cell := row.cell.commit t } : Row τ α).Live) : row.Live := by
  obtain h | h := h
  · rw [Cell.committed_commit] at h
    rcases hp : row.cell.pending with _ | p
    · rw [Cell.read_of_none hp] at h
      exact .inl h
    · exact .inr (by simp [hp])
  · obtain ⟨⟨u, v⟩, hp⟩ := Option.ne_none_iff_exists'.mp h
    exact .inr (by simp [(Cell.pending_commit hp).1])

theorem Live.of_rollback (h : ({ row with cell := row.cell.rollback t } : Row τ α).Live) : row.Live := by
  obtain h | h := h
  · exact .inl (by simpa using h)
  · obtain ⟨⟨u, v⟩, hp⟩ := Option.ne_none_iff_exists'.mp h
    exact .inr (by simp [(Cell.pending_rollback hp).1])

end Row

/-- No two inserted rows have the same key. -/
def UniqueKeys {τ α : Type} (rows : List (Row τ α)) : Prop := rows.Pairwise fun a b => a.Live → b.Live → a.key ≠ b.key

namespace UniqueKeys
variable {τ α : Type} {rows : List (Row τ α)}

theorem insert (h : UniqueKeys rows) {new : Row τ α} (hnew : ∀ row ∈ rows, row.key = new.key → ¬row.Live) :
    UniqueKeys (rows ++ [new]) := by
  refine List.pairwise_append.mpr ⟨h, List.pairwise_singleton _ _, fun row hrow x hx hlive _ hkey => ?_⟩
  obtain rfl := List.mem_singleton.mp hx
  exact hnew row hrow hkey hlive

theorem map (h : UniqueKeys rows) {f : Row τ α → Row τ α} (hf : ∀ row ∈ rows, (f row).key = row.key ∧ ((f row).Live → row.Live)) :
    UniqueKeys (rows.map f) := by
  refine List.pairwise_map.mpr (List.Pairwise.imp_of_mem (fun {a b} ha hb hab hla hlb => ?_) h)
  rw [(hf a ha).1, (hf b hb).1]
  exact hab ((hf a ha).2 hla) ((hf b hb).2 hlb)

theorem modify (h : UniqueKeys rows) {i : Nat} {f : Row τ α → Row τ α}
    (hf : ∀ row, rows[i]? = some row → (f row).key = row.key ∧ ((f row).Live → row.Live)) : UniqueKeys (rows.modify i f) := by
  refine List.pairwise_iff_getElem.mpr fun j k hj hk hjk hlj hlk => ?_
  have hrow : ∀ {n : Nat} (hn : n < (rows.modify i f).length), ∃ hn' : n < rows.length,
      ((rows.modify i f)[n]).key = rows[n].key ∧ (((rows.modify i f)[n]).Live → rows[n].Live) := by
    intro n hn
    have hn' : n < rows.length := by simpa using hn
    refine ⟨hn', ?_⟩
    rw [List.getElem_modify]
    split
    next hi => exact hf _ (hi ▸ List.getElem?_eq_getElem hn')
    next => exact ⟨rfl, id⟩
  obtain ⟨hj', hkeyj, hlivej⟩ := hrow hj
  obtain ⟨hk', hkeyk, hlivek⟩ := hrow hk
  rw [hkeyj, hkeyk]
  exact List.pairwise_iff_getElem.mp h j k hj' hk' hjk (hlivej hlj) (hlivek hlk)

end UniqueKeys

/-- Transactions that wait for keys only after those that they hold do not wait in a cycle. -/
theorem no_wait_cycle {τ κ : Type} [LinearOrder κ] {Waits : τ → τ → Prop} (key : τ → κ)
    (h : ∀ {t u v}, Waits t u → Waits u v → key t < key u) (t : τ) : ¬Relation.TransGen Waits t t := by
  have hlt : ∀ {u v}, Relation.TransGen Waits t u → Waits u v → key t < key u := by
    intro u v htu
    induction htu generalizing v with
    | single htu => exact h htu
    | tail _ hbu ih => exact fun huv => lt_trans (ih hbu) (h hbu huv)
  intro hcycle
  obtain ⟨u, htu, -⟩ := (Relation.TransGen.head'_iff).mp hcycle
  exact lt_irrefl _ (hlt hcycle htu)
