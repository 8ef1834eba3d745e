import CryptoCollector.Providers.Chain

/-!
# The providers in the tree

The names of the providers and what each of them serves. The
CoinGecko tier decides whether the range endpoint is there.
-/

namespace CryptoCollector.Providers

inductive Tier where
  | demo
  | analyst
  | lite
  | pro
  | enterprise
  deriving DecidableEq, Repr

def Tier.isPaid : Tier → Bool
  | .demo => false
  | _ => true

inductive InTree where
  | coinGecko (tier : Tier)
  | binance
  | bitstamp
  | coinbase
  | kraken
  deriving DecidableEq, Repr

def InTree.name : InTree → String
  | .coinGecko _ => "coingecko"
  | .binance => "binance"
  | .bitstamp => "bitstamp"
  | .coinbase => "coinbase"
  | .kraken => "kraken"

def InTree.supports : InTree → Capability → Bool
  | .coinGecko tier, .ohlcRange => tier.isPaid
  | .coinGecko _, _ => true
  | .binance, capability => capability ∈ [.spot, .ohlc, .ohlcRange]
  | .bitstamp, capability => capability ∈ [.ohlc, .ohlcRange]
  | .coinbase, _ => false
  | .kraken, _ => false

instance : Provider InTree := ⟨InTree.name, InTree.supports⟩

end CryptoCollector.Providers
