import CryptoCollector.Foundations.LastMax
import Mathlib.Data.Prod.Lex
import Mathlib.Data.Rat.Defs
import Mathlib.Data.String.Basic
import Mathlib.Order.WithBot

/-!
# The choice of a derivatives ticker

Of the tickers whose symbol denotes the base, on the queried venue where any is there, the
one with the highest open interest is chosen, and among those the last symbol. Tickers of
one symbol on several venues are told apart by nothing else.
-/

namespace CryptoCollector.Providers
open Foundations

/-- `CgDerivTicker`. A JSON number keeps its text. -/
structure CgDerivTicker where
  market : Option String
  symbol : Option String
  price : Option String
  contractType : Option String
  index : Option String
  basis : Option String
  fundingRate : Option String
  openInterest : Option String
  volume24h : Option String
  lastTradedAt : Option ℤ
  deriving DecidableEq, Repr

/-- The case mappings of text and the two readings of a decimal. -/
structure TextOps where
  toUppercase : String → String
  toLowercase : String → String
  decimalFromStr : String → Option ℚ
  decimalFromScientific : String → Option ℚ

def knownDerivQuotes : List String :=
  ["USDT", "USD", "USDC", "BUSD", "USDE", "FDUSD", "DAI", "TUSD"]

def isAsciiAlphanumeric (c : Char) : Bool := c.isAlphanum

namespace TextOps

variable (ops : TextOps)

def decimalFromNumber (n : String) : Option ℚ :=
  (ops.decimalFromStr n).or (ops.decimalFromScientific n)

def symbolMatchesBase (symbol baseUpper quoteUpper : String) : Bool :=
  let sym := ops.toUppercase symbol
  if sym = baseUpper then true
  else
    match baseUpper.toList.isPrefixOf? sym.toList with
    | none => false
    | some [] => true
    | some (c :: rest) =>
      if isAsciiAlphanumeric c then
        String.ofList (c :: rest) = quoteUpper ∨ String.ofList (c :: rest) ∈ knownDerivQuotes
      else true

/-- `deriv_open_interest`: zero when absent or unparseable. -/
def derivOpenInterest (t : CgDerivTicker) : ℚ :=
  (t.openInterest.bind ops.decimalFromNumber).getD 0

/-- What the tickers are compared by: the open interest, then the symbol. -/
def derivKey (t : CgDerivTicker) : ℚ ×ₗ WithBot String :=
  toLex (ops.derivOpenInterest t, t.symbol)

def matchesBase (base quote : String) (t : CgDerivTicker) : Bool :=
  t.symbol.any fun s => ops.symbolMatchesBase s (ops.toUppercase base) (ops.toUppercase quote)

def onVenue (venue : String) (t : CgDerivTicker) : Bool :=
  t.market.any fun m => ops.toLowercase m = ops.toLowercase venue

/-- The candidates, on the venue if any of them is. -/
def derivCandidates (tickers : List CgDerivTicker) (base quote : String) (venue : Option String) :
    List CgDerivTicker :=
  let candidates := tickers.filter (ops.matchesBase base quote)
  match venue with
  | none => candidates
  | some v =>
    let venueMatches := candidates.filter (ops.onVenue v)
    if venueMatches = [] then candidates else venueMatches

def selectDerivTicker (tickers : List CgDerivTicker) (base quote : String)
    (venue : Option String) : Option CgDerivTicker :=
  lastMax ops.derivKey (ops.derivCandidates tickers base quote venue)

/-- The ticker denotes the base, and is on the venue if such a ticker is. -/
def Eligible (tickers : List CgDerivTicker) (base quote : String) (venue : Option String)
    (t : CgDerivTicker) : Prop :=
  t ∈ tickers ∧ ops.matchesBase base quote t = true ∧
    ∀ v ∈ venue, (∃ u ∈ tickers, ops.matchesBase base quote u = true ∧ ops.onVenue v u = true) →
      ops.onVenue v t = true

section Selection

variable {ops} {tickers tickers' : List CgDerivTicker} {base quote : String}
  {venue : Option String} {t : CgDerivTicker}

/-- One condition on the tickers, which the list enters only as a set, picks the candidates. -/
theorem derivCandidates_eq_filter (ops : TextOps) (tickers : List CgDerivTicker)
    (base quote : String) (venue : Option String) :
    ∃ p : CgDerivTicker → Bool, ∀ tickers', tickers.Perm tickers' →
      ops.derivCandidates tickers' base quote venue = tickers'.filter p := by
  cases venue with
  | none => exact ⟨ops.matchesBase base quote, fun _ _ => rfl⟩
  | some v =>
    have hempty : ∀ tickers', tickers.Perm tickers' →
        ((tickers'.filter (ops.matchesBase base quote)).filter (ops.onVenue v) = [] ↔
          (tickers.filter (ops.matchesBase base quote)).filter (ops.onVenue v) = []) := by
      intro tickers' hperm
      have hfilter := (hperm.filter (ops.matchesBase base quote)).filter (ops.onVenue v)
      constructor
      · intro hnil
        exact (hnil ▸ hfilter).eq_nil
      · intro hnil
        exact (hnil ▸ hfilter).nil_eq.symm
    by_cases hnil : (tickers.filter (ops.matchesBase base quote)).filter (ops.onVenue v) = []
    · refine ⟨ops.matchesBase base quote, ?_⟩
      intro tickers' hperm
      exact if_pos ((hempty tickers' hperm).mpr hnil)
    · refine ⟨fun t => ops.matchesBase base quote t && ops.onVenue v t, ?_⟩
      intro tickers' hperm
      rw [derivCandidates, if_neg (mt (hempty tickers' hperm).mp hnil), List.filter_filter]
      simp only [Bool.and_comm]

theorem mem_derivCandidates :
    t ∈ ops.derivCandidates tickers base quote venue ↔ ops.Eligible tickers base quote venue t := by
  unfold derivCandidates Eligible
  cases venue with
  | none => simp
  | some v =>
    dsimp only
    split_ifs with hnil
    · rw [List.filter_eq_nil_iff] at hnil
      simp only [List.mem_filter] at hnil
      simp only [List.mem_filter, Option.mem_def, Option.some.injEq, forall_eq']
      constructor
      · rintro ⟨ht, hbase⟩
        refine ⟨ht, hbase, ?_⟩
        rintro ⟨u, hu, hubase, huvenue⟩
        exact absurd huvenue (hnil u ⟨hu, hubase⟩)
      · rintro ⟨ht, hbase, -⟩
        exact ⟨ht, hbase⟩
    · obtain ⟨u, hu⟩ := List.exists_mem_of_ne_nil _ hnil
      simp only [List.mem_filter] at hu
      simp only [List.mem_filter, Option.mem_def, Option.some.injEq, forall_eq']
      constructor
      · rintro ⟨⟨ht, hbase⟩, hvenue⟩
        exact ⟨ht, hbase, fun _ => hvenue⟩
      · rintro ⟨ht, hbase, hvenue⟩
        exact ⟨⟨ht, hbase⟩, hvenue ⟨u, hu.1.1, hu.1.2, hu.2⟩⟩

/-- The chosen ticker is eligible and no eligible one is above it. -/
theorem selectDerivTicker_best (h : ops.selectDerivTicker tickers base quote venue = some t) :
    ops.Eligible tickers base quote venue t ∧
      ∀ u, ops.Eligible tickers base quote venue u → ops.derivKey u ≤ ops.derivKey t := by
  obtain ⟨hmem, htop⟩ := lastMax_top h
  exact ⟨mem_derivCandidates.mp hmem, fun u hu => htop u (mem_derivCandidates.mpr hu)⟩

theorem selectDerivTicker_eq_none_iff :
    ops.selectDerivTicker tickers base quote venue = none ↔
      ∀ t, ¬ops.Eligible tickers base quote venue t := by
  rw [selectDerivTicker, lastMax_eq_none_iff, List.eq_nil_iff_forall_not_mem]
  simp only [mem_derivCandidates]

/-- The choice does not depend on the order of the tickers exactly when the eligible ones
with the greatest open interest and symbol are all the same. -/
theorem selectDerivTicker_perm_iff (ops : TextOps) (tickers : List CgDerivTicker)
    (base quote : String) (venue : Option String) :
    (∀ tickers', tickers.Perm tickers' →
      ops.selectDerivTicker tickers' base quote venue =
        ops.selectDerivTicker tickers base quote venue) ↔
      ∀ t u, ops.Eligible tickers base quote venue t → ops.Eligible tickers base quote venue u →
        ops.derivOpenInterest t = ops.derivOpenInterest u → t.symbol = u.symbol →
          (∀ w, ops.Eligible tickers base quote venue w → ops.derivKey w ≤ ops.derivKey t) →
            t = u := by
  obtain ⟨p, hp⟩ := derivCandidates_eq_filter ops tickers base quote venue
  have hself := hp tickers (List.Perm.refl _)
  have htop : ∀ t, TopEntry ops.derivKey (tickers.filter p) t ↔
      ops.Eligible tickers base quote venue t ∧
        ∀ w, ops.Eligible tickers base quote venue w → ops.derivKey w ≤ ops.derivKey t := by
    intro t
    rw [← hself, TopEntry]
    simp only [mem_derivCandidates]
  have hchoice : (∀ tickers', tickers.Perm tickers' →
      ops.selectDerivTicker tickers' base quote venue =
        ops.selectDerivTicker tickers base quote venue) ↔
      ∀ tickers', tickers.Perm tickers' →
        lastMax ops.derivKey (tickers'.filter p) = lastMax ops.derivKey (tickers.filter p) := by
    refine forall_congr' fun tickers' => forall_congr' fun hperm => ?_
    rw [selectDerivTicker, selectDerivTicker, hp tickers' hperm, hself]
  rw [hchoice, lastMax_filter_perm_iff]
  simp only [htop]
  constructor
  · intro hone t u ht hu hinterest hsymbol hbest
    have hkey : ops.derivKey u = ops.derivKey t := by
      rw [derivKey, derivKey, hinterest, hsymbol]
    refine hone t u ⟨ht, hbest⟩ ⟨hu, ?_⟩
    rwa [hkey]
  · rintro hsame t u ⟨ht, hbest⟩ ⟨hu, hubest⟩
    have hkey : ops.derivKey t = ops.derivKey u := le_antisymm (hubest t ht) (hbest u hu)
    obtain ⟨hinterest, hsymbol⟩ := Prod.mk.inj (toLex_inj.mp hkey)
    exact hsame t u ht hu hinterest hsymbol hbest

end Selection

/-- The operations on ASCII text and whole numbers. -/
def ascii : TextOps where
  toUppercase s := String.ofList (s.toList.map Char.toUpper)
  toLowercase s := String.ofList (s.toList.map Char.toLower)
  decimalFromStr s :=
    if s.toList ≠ [] ∧ s.toList.all Char.isDigit then
      some (s.toList.foldl (fun n c => 10 * n + (c.toNat - '0'.toNat)) 0 : ℕ)
    else none
  decimalFromScientific _ := none

def perpetual (market symbol : String) : CgDerivTicker where
  market := some market
  symbol := some symbol
  price := some "1"
  contractType := some "perpetual"
  index := none
  basis := none
  fundingRate := none
  openInterest := some "100"
  volume24h := none
  lastTradedAt := none

/-- Two venues list the symbol with the same open interest; the later one is chosen. -/
theorem selectDerivTicker_order_dependent :
    [perpetual "Binance" "BTCUSDT", perpetual "Bybit" "BTCUSDT"].Perm
        [perpetual "Bybit" "BTCUSDT", perpetual "Binance" "BTCUSDT"] ∧
      ascii.selectDerivTicker [perpetual "Binance" "BTCUSDT", perpetual "Bybit" "BTCUSDT"]
          "BTC" "USDT" none = some (perpetual "Bybit" "BTCUSDT") ∧
      ascii.selectDerivTicker [perpetual "Bybit" "BTCUSDT", perpetual "Binance" "BTCUSDT"]
          "BTC" "USDT" none = some (perpetual "Binance" "BTCUSDT") ∧
      perpetual "Bybit" "BTCUSDT" ≠ perpetual "Binance" "BTCUSDT" := by
  refine ⟨List.Perm.swap _ _ _, ?_, ?_, ?_⟩
  · decide +kernel
  · decide +kernel
  · decide

end TextOps
end CryptoCollector.Providers
