import Mathlib.Data.List.Sort
import Mathlib.Order.Compare

/-! Lists in an order, read page by page: each page starts after the last row of the one before it. -/

namespace Paging

/-! ### Rows in order -/

section
variable {α : Type} (cmp : α → α → Ordering)

/-- The rows in the order of `cmp`. -/
def inOrder (xs : List α) : List α := xs.insertionSort fun a b => (cmp a b).isLE

/-- The rows that come after the marker, and all of them without one. -/
def after (marker : Option α) (xs : List α) : List α :=
  match marker with
  | none => xs
  | some m => xs.filter fun a => cmp m a == .lt

/-- The first `limit` rows after the marker. -/
def page (limit : Nat) (marker : Option α) (xs : List α) : List α := (after cmp marker (inOrder cmp xs)).take limit

variable {cmp} {xs ys zs : List α} {m : α} {limit : Nat}

theorem mem_inOrder {a : α} : a ∈ inOrder cmp xs ↔ a ∈ xs := List.mem_insertionSort _

theorem length_inOrder : (inOrder cmp xs).length = xs.length := List.length_insertionSort _ xs

theorem length_page_none : (page cmp limit none xs).length = min limit xs.length := by
  rw [page, after, List.length_take, length_inOrder]

/-- No two rows that differ are equal in the order. -/
def Separates (cmp : α → α → Ordering) (xs : List α) : Prop := ∀ a ∈ xs, ∀ b ∈ xs, cmp a b = .eq → a = b

theorem pairwise_inOrder [Std.TransCmp cmp] (hsep : Separates cmp xs) (hnodup : xs.Nodup) :
    (inOrder cmp xs).Pairwise fun a b => cmp a b = .lt := by
  have htotal : Std.Total fun a b => (cmp a b).isLE = true := ⟨fun a b => by
    have hswap : cmp b a = (cmp a b).swap := Std.OrientedCmp.eq_swap
    rw [hswap]
    cases cmp a b <;> simp⟩
  have htrans : IsTrans α fun a b => (cmp a b).isLE = true := ⟨fun _ _ _ => Std.TransCmp.isLE_trans⟩
  have hle : (inOrder cmp xs).Pairwise fun a b => (cmp a b).isLE = true := List.pairwise_insertionSort _ xs
  have hne : (inOrder cmp xs).Pairwise (· ≠ ·) := (List.perm_insertionSort _ xs).nodup_iff.mpr hnodup
  refine List.Pairwise.imp_of_mem (fun {a b} ha hb h => ?_) (hle.and hne)
  cases hab : cmp a b with
  | lt => rfl
  | eq => exact absurd (hsep a (mem_inOrder.mp ha) b (mem_inOrder.mp hb) hab) h.2
  | gt => simp [hab] at h

/-- After a row come the rows that stand behind it. -/
theorem after_append_cons [Std.OrientedCmp cmp] (h : (ys ++ m :: zs).Pairwise fun a b => cmp a b = .lt) :
    after cmp (some m) (ys ++ m :: zs) = zs := by
  obtain ⟨-, hzs, hcross⟩ := List.pairwise_append.mp h
  have hbefore : ys.filter (fun a => cmp m a == .lt) = [] := List.filter_eq_nil_iff.mpr fun a ha => by
    have hswap : cmp m a = (cmp a m).swap := Std.OrientedCmp.eq_swap
    rw [hswap, hcross a ha m List.mem_cons_self]
    decide
  have hself : (cmp m m == .lt) = false := by
    have heq : cmp m m = .eq := Std.ReflCmp.compare_self
    rw [heq]
    rfl
  have hafter : zs.filter (fun a => cmp m a == .lt) = zs := List.filter_eq_self.mpr fun a ha => by
    rw [(List.pairwise_cons.mp hzs).1 a ha]
    rfl
  rw [after, List.filter_append, hbefore, List.nil_append, List.filter_cons_of_neg (by simp [hself]), hafter]

/-- What is left after the marker are the last rows of the list. -/
def Follows (cmp : α → α → Ordering) (marker : Option α) (xs : List α) : Prop :=
  ∃ before, inOrder cmp xs = before ++ after cmp marker (inOrder cmp xs)

theorem follows_none : Follows cmp none xs := ⟨[], rfl⟩

theorem take_eq_dropLast_append (h : (ys.take limit).getLast? = some m) : ∃ init, ys = init ++ m :: ys.drop limit := by
  obtain ⟨init, hinit⟩ := List.getLast?_eq_some_iff.mp h
  refine ⟨init, ?_⟩
  calc ys = ys.take limit ++ ys.drop limit := (List.take_append_drop limit ys).symm
    _ = init ++ m :: ys.drop limit := by rw [hinit, List.append_assoc, List.singleton_append]

/-- The last row of a page as the marker leaves what the page left. -/
theorem after_last [Std.TransCmp cmp] (hsep : Separates cmp xs) (hnodup : xs.Nodup) {marker : Option α}
    (h : Follows cmp marker xs) (hlast : (page cmp limit marker xs).getLast? = some m) :
    after cmp (some m) (inOrder cmp xs) = (after cmp marker (inOrder cmp xs)).drop limit ∧ Follows cmp (some m) xs := by
  obtain ⟨before, hbefore⟩ := h
  obtain ⟨init, hinit⟩ := take_eq_dropLast_append hlast
  have hall : inOrder cmp xs = (before ++ init) ++ m :: (after cmp marker (inOrder cmp xs)).drop limit := by
    rw [List.append_assoc, ← hinit]
    exact hbefore
  have hsorted := pairwise_inOrder hsep hnodup
  have hafter : after cmp (some m) (inOrder cmp xs) = (after cmp marker (inOrder cmp xs)).drop limit := by
    rw [hall] at hsorted
    have hbehind := after_append_cons hsorted
    rwa [← hall] at hbehind
  refine ⟨hafter, before ++ init ++ [m], ?_⟩
  rw [hafter, List.append_assoc _ [m], List.singleton_append]
  exact hall

end

/-! ### Following links -/

section
variable {α ρ : Type}

/-- The rows found from a request on, when the link of each answer is followed until there is none. -/
def follow (serve : ρ → Option (List α × Option ρ)) : Nat → ρ → Option (List α)
  | 0, _ => none
  | fuel + 1, r =>
    match serve r with
    | none => none
    | some (rows, none) => some rows
    | some (rows, some r') => (follow serve fuel r').map (rows ++ ·)

variable {serve : ρ → Option (List α × Option ρ)} {cmp : α → α → Ordering} {xs : List α} {limit : Nat}

/-- What is found does not depend on how far the links may be followed. -/
theorem follow_unique {fuel fuel' : Nat} {r : ρ} {found found' : List α} (h : follow serve fuel r = some found)
    (h' : follow serve fuel' r = some found') : found = found' := by
  induction fuel generalizing fuel' r found found' with
  | zero => cases h
  | succ fuel ih =>
    cases fuel' with
    | zero => cases h'
    | succ fuel' =>
      rw [follow] at h h'
      split at h
      next => cases h
      next rows hserve =>
        rw [hserve] at h'
        exact Option.some.inj (h.symm.trans h')
      next rows r' hserve =>
        rw [hserve] at h'
        obtain ⟨rest, hrest, rfl⟩ := Option.map_eq_some_iff.mp h
        obtain ⟨rest', hrest', rfl⟩ := Option.map_eq_some_iff.mp h'
        rw [ih hrest hrest']

/-- `Asks r marker` requests are answered by pages of one list, and the link of a full page asks for the page after it. -/
structure Pages (serve : ρ → Option (List α × Option ρ)) (cmp : α → α → Ordering) (limit : Nat) (xs : List α)
    (Asks : ρ → Option α → Prop) : Prop where
  short : ∀ r marker, Asks r marker → (page cmp limit marker xs).length ≠ limit →
    serve r = some (page cmp limit marker xs, none)
  full : ∀ r marker, Asks r marker → ∀ m, (page cmp limit marker xs).getLast? = some m →
    (page cmp limit marker xs).length = limit → ∃ r', serve r = some (page cmp limit marker xs, some r') ∧ Asks r' (some m)

/-- Following the links gives each row after the marker once, in order. -/
theorem Pages.follow_eq [Std.TransCmp cmp] {Asks : ρ → Option α → Prop} (hpages : Pages serve cmp limit xs Asks)
    (hlimit : 0 < limit) (hsep : Separates cmp xs) (hnodup : xs.Nodup) {fuel : Nat} {r : ρ} {marker : Option α}
    (hasks : Asks r marker) (hfollows : Follows cmp marker xs)
    (hfuel : (after cmp marker (inOrder cmp xs)).length < fuel) :
    follow serve fuel r = some (after cmp marker (inOrder cmp xs)) := by
  -- A page that is full leaves fewer rows for the pages after it.
  induction fuel generalizing r marker with
  | zero => exact absurd hfuel (Nat.not_lt_zero _)
  | succ fuel ih =>
    rw [follow]
    by_cases hfull : (page cmp limit marker xs).length = limit
    · cases hlast : (page cmp limit marker xs).getLast? with
      | none =>
        rw [List.getLast?_eq_none_iff.mp hlast] at hfull
        exact absurd hfull.symm (Nat.ne_of_gt hlimit)
      | some m =>
        obtain ⟨r', hserve, hasks'⟩ := hpages.full r marker hasks m hlast hfull
        obtain ⟨hafter, hfollows'⟩ := after_last hsep hnodup hfollows hlast
        have hlong : limit ≤ (after cmp marker (inOrder cmp xs)).length := by
          rw [page, List.length_take] at hfull
          omega
        have hfewer : (after cmp (some m) (inOrder cmp xs)).length < fuel := by
          rw [hafter, List.length_drop]
          omega
        rw [hserve]
        show (follow serve fuel r').map _ = _
        rw [ih hasks' hfollows' hfewer, hafter, Option.map_some, page, List.take_append_drop]
    · rw [hpages.short r marker hasks hfull]
      show some (page cmp limit marker xs) = _
      rw [page, List.length_take] at hfull
      rw [page, List.take_of_length_le (by omega)]

end

end Paging
