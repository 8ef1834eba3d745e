import CryptoCollector.Api.Cursor
import CryptoCollector.Foundations.KeysetSlices

/-!
# Following the pages of a list endpoint

A page of a list endpoint is the front of what comes after the cursor in one ascending
list, fetched with one row too many. A client that follows `next_cursor`, with any
limits, reads that list in slices.
-/

namespace CryptoCollector.Api
open Foundations

/-- The pages a client gets that follows `next_cursor` from `cursor` on, each page
asked for with its own limit, to the page with no next. -/
inductive Follows {α : Type} (serves : Option String → Option ℤ → Page α → Prop) :
    (ℕ → Option ℤ) → Option String → List (Page α) → Prop
  | last {limits : ℕ → Option ℤ} {cursor : Option String} {page : Page α} :
      serves cursor (limits 0) page → page.nextCursor = none → Follows serves limits cursor [page]
  | more {limits : ℕ → Option ℤ} {cursor : Option String} {page : Page α} {next : String}
      {pages : List (Page α)} :
      serves cursor (limits 0) page → page.nextCursor = some next →
      Follows serves (fun i => limits (i + 1)) (some next) pages →
      Follows serves limits cursor (page :: pages)

section Answers

variable {α : Type} {serves serves' : Option String → Option ℤ → Page α → Prop}
  {limits : ℕ → Option ℤ} {cursor : Option String} {first : Page α}

theorem follows_last_iff (hserves : ∀ page, serves cursor (limits 0) page ↔ page = first)
    (hnone : first.nextCursor = none) (pages : List (Page α)) :
    Follows serves limits cursor pages ↔ pages = [first] := by
  constructor
  · intro hfollows
    cases hfollows with
    | last hserved _ => rw [(hserves _).mp hserved]
    | more hserved hnext _ =>
      rw [(hserves _).mp hserved, hnone] at hnext
      cases hnext
  · rintro rfl
    exact Follows.last ((hserves _).mpr rfl) hnone

theorem follows_more_iff (hserves : ∀ page, serves cursor (limits 0) page ↔ page = first)
    {next : String} (hnext : first.nextCursor = some next) {rest : List (Page α)}
    (hrest : ∀ pages, Follows serves (fun i => limits (i + 1)) (some next) pages ↔ pages = rest)
    (pages : List (Page α)) : Follows serves limits cursor pages ↔ pages = first :: rest := by
  constructor
  · intro hfollows
    cases hfollows with
    | last hserved hnone =>
      rw [(hserves _).mp hserved, hnext] at hnone
      cases hnone
    | more hserved hnext' hlater =>
      obtain rfl := (hserves _).mp hserved
      obtain rfl := Option.some.inj (hnext.symm.trans hnext')
      rw [(hrest _).mp hlater]
  · rintro rfl
    exact Follows.more ((hserves _).mpr rfl) hnext ((hrest _).mpr rfl)

theorem Follows.of_agree {pages : List (Page α)} (h : Follows serves limits cursor pages)
    (hfirst : ∀ page, serves cursor (limits 0) page → serves' cursor (limits 0) page)
    (hlater : ∀ i next page, serves (some next) (limits i) page →
      serves' (some next) (limits i) page) : Follows serves' limits cursor pages := by
  induction h with
  | last hserved hnone => exact Follows.last (hfirst _ hserved) hnone
  | more hserved hnext _ ih =>
    refine Follows.more (hfirst _ hserved) hnext ?_
    exact ih (fun page => hlater 1 _ page) fun i => hlater (i + 1)

theorem follows_congr {answer answer' : Option String → Option ℤ → Except ApiError (Page α)}
    (hfirst : answer cursor (limits 0) = answer' cursor (limits 0))
    (hlater : ∀ i next, answer (some next) (limits i) = answer' (some next) (limits i))
    (pages : List (Page α)) :
    Follows (fun cursor limit page => answer cursor limit = .ok page) limits cursor pages ↔
      Follows (fun cursor limit page => answer' cursor limit = .ok page) limits cursor pages := by
  constructor
  · intro hfollows
    exact hfollows.of_agree (fun _ h => hfirst.symm.trans h) fun i next _ h =>
      (hlater i next).symm.trans h
  · intro hfollows
    exact hfollows.of_agree (fun _ h => hfirst.trans h) fun i next _ h =>
      (hlater i next).trans h

end Answers

def pageLimit (limit : Option ℤ) : ℕ := ((validateLimit limit).toOption.getD 1).toNat

theorem pageLimit_eq {limit : Option ℤ} {n : ℤ} (h : validateLimit limit = .ok n) :
    pageLimit limit = n.toNat := by
  rw [pageLimit, h]
  rfl

variable {α K : Type} {κ : Type*} [LinearOrder κ] {encode : K → String} {keyFn : α → K}
  {rank : K → κ} {full : List α}

/-- The page after a cursor of a list in the order of its keys. -/
def keysetPage (encode : K → String) (keyFn : α → K) (rank : K → κ) (full : List α)
    (cursor : Option K) (limit : ℕ) : Page α :=
  paginate encode
    ((after (fun x => rank (keyFn x)) full (cursor.map rank)).take (limit + 1)) limit keyFn

theorem paginate_eq_keysetPage (keyFn : α → K) (rank : K → κ) {rows : List α}
    (hfull : Ascending (fun x => rank (keyFn x)) full)
    (hrows : Ascending (fun x => rank (keyFn x)) rows) {cursor : Option K}
    (hmem : ∀ x, x ∈ rows ↔ x ∈ full ∧ ∀ key ∈ cursor, rank key < rank (keyFn x)) {limit : ℤ}
    (hlimit : 1 ≤ limit) :
    paginate encode (rows.take (limit + 1).toNat) limit keyFn =
      keysetPage encode keyFn rank full cursor limit.toNat := by
  have hsame : rows = after (fun x => rank (keyFn x)) full (cursor.map rank) := by
    apply hrows.ext (after_ascending hfull _)
    intro x
    rw [hmem, mem_after]
    simp
  have hsize : (limit + 1).toNat = limit.toNat + 1 := by omega
  have hnat : ((limit.toNat : ℕ) : ℤ) = limit := Int.toNat_of_nonneg (by omega)
  rw [keysetPage, hsame, hsize, hnat]

theorem keysetPage_last {cursor : Option K} {limit : ℕ}
    (h : (after (fun x => rank (keyFn x)) full (cursor.map rank)).length ≤ limit) :
    keysetPage encode keyFn rank full cursor limit =
      ⟨after (fun x => rank (keyFn x)) full (cursor.map rank), none⟩ := by
  rw [keysetPage, List.take_of_length_le (by omega), paginate, if_neg (by omega)]

theorem keysetPage_more {cursor : Option K} {limit : ℕ}
    (h : limit < (after (fun x => rank (keyFn x)) full (cursor.map rank)).length) :
    keysetPage encode keyFn rank full cursor limit =
      ⟨(after (fun x => rank (keyFn x)) full (cursor.map rank)).take limit,
        ((after (fun x => rank (keyFn x)) full (cursor.map rank)).take limit).getLast?.map
          fun x => encode (keyFn x)⟩ := by
  have hlength : ((limit : ℤ)) <
      ((after (fun x => rank (keyFn x)) full (cursor.map rank)).take (limit + 1)).length := by
    rw [List.length_take]
    omega
  rw [keysetPage, paginate, if_pos hlength, Int.toNat_natCast, List.take_take,
    Nat.min_eq_left (Nat.le_succ limit)]

/-- The endpoint answers with the pages of `full`, the limits read as `size`. -/
def ServesKeyset (encode : K → String) (keyFn : α → K) (rank : K → κ) (full : List α)
    (size : Option ℤ → ℕ) (accepted : Option ℤ → Prop)
    (serves : Option String → Option ℤ → Page α → Prop) : Prop :=
  ∀ (cursor : Option K) (limit : Option ℤ), accepted limit → ∀ page,
    serves (cursor.map encode) limit page ↔
      page = keysetPage encode keyFn rank full cursor (size limit)

/-- Following the pages of an endpoint that serves `full` reads it in slices. -/
theorem follows_keyset {size : Option ℤ → ℕ} (accepted : Option ℤ → Prop)
    {limits : ℕ → Option ℤ} (hlimits : ∀ i, accepted (limits i)) {slices : List (List α)}
    {position : Option κ}
    (h : Slices (fun x => rank (keyFn x)) full (fun i => size (limits i)) position slices) :
    ∀ cursor : Option K, cursor.map rank = position →
      ∃ pages, pages.map Page.items = slices ∧
        ∀ serves, ServesKeyset encode keyFn rank full size accepted serves →
          ∀ pages', Follows serves limits (cursor.map encode) pages' ↔ pages' = pages := by
  generalize hsizes : (fun i => size (limits i)) = sizes at h
  induction h generalizing limits with
  | @last sizes position hfits =>
    subst hsizes
    rintro cursor rfl
    have hpage : keysetPage encode keyFn rank full cursor (size (limits 0)) = _ :=
      keysetPage_last hfits
    refine ⟨[keysetPage encode keyFn rank full cursor (size (limits 0))],
      by rw [List.map_singleton, hpage], ?_⟩
    intro serves hserves pages'
    exact follows_last_iff (hserves cursor _ (hlimits 0)) (by rw [hpage]) pages'
  | @more sizes position k slices hmore hlast _ ih =>
    subst hsizes
    rintro cursor rfl
    have hpage : keysetPage encode keyFn rank full cursor (size (limits 0)) = _ :=
      keysetPage_more hmore
    obtain ⟨x, hx, rfl⟩ := Option.map_eq_some_iff.mp hlast
    have hnextCursor : (keysetPage encode keyFn rank full cursor (size (limits 0))).nextCursor =
        some (encode (keyFn x)) := by
      rw [hpage, hx]
      rfl
    obtain ⟨pages, hitems, hrest⟩ := @ih (fun i => limits (i + 1)) (fun i => hlimits (i + 1)) rfl
      (some (keyFn x)) rfl
    refine ⟨keysetPage encode keyFn rank full cursor (size (limits 0)) :: pages,
      by rw [List.map_cons, hitems, hpage], ?_⟩
    intro serves hserves pages'
    exact follows_more_iff (hserves cursor _ (hlimits 0)) hnextCursor (hrest serves hserves) pages'

/-- From any cursor on, under any limits the endpoint accepts, following the pages ends,
and what they list is what comes after the cursor, once each and in order. -/
theorem exists_follows {size : Option ℤ → ℕ} {accepted : Option ℤ → Prop}
    {serves : Option String → Option ℤ → Page α → Prop}
    (hfull : Ascending (fun x => rank (keyFn x)) full)
    (hserves : ServesKeyset encode keyFn rank full size accepted serves)
    (hpos : ∀ limit, accepted limit → 0 < size limit) {limits : ℕ → Option ℤ}
    (hlimits : ∀ i, accepted (limits i)) (cursor : Option K) :
    ∃ pages, pages.flatMap Page.items =
        after (fun x => rank (keyFn x)) full (cursor.map rank) ∧
      ∀ pages', Follows serves limits (cursor.map encode) pages' ↔ pages' = pages := by
  obtain ⟨slices, hslices⟩ := exists_slices hfull (fun i => hpos _ (hlimits i)) (cursor.map rank)
  obtain ⟨pages, hitems, hfollows⟩ := follows_keyset accepted hlimits hslices cursor rfl
  refine ⟨pages, ?_, hfollows serves hserves⟩
  rw [List.flatMap_def, hitems, hslices.flatten_eq hfull]

end CryptoCollector.Api
