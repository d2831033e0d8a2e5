import Byze.Coins
import Byze.Lib.FreshDirty

/-! Caches of coins, one over the other, down to a store of coins. A cache fetches
coins from the view below it, and writes down those of its entries that have
changed. -/

namespace Byze

def Coin.null : Coin := ⟨⟨-1, []⟩, false, 0⟩

structure CCoinsCacheEntry where
  coin : Coin
  isDirty : Bool
  isFresh : Bool

def CCoinsCacheEntry.new : CCoinsCacheEntry := ⟨Coin.null, false, false⟩

def CCoinsCacheEntry.isFlagged (entry : CCoinsCacheEntry) : Bool := entry.isDirty || entry.isFresh

structure ScriptUsage where
  usage : CScript → Nat
  usage_nil : usage [] = 0

inductive CoinsError where
  | logicError (what : String)
  | assertion
  deriving DecidableEq

/-- The entries with a flag are linked in the order in which they got it. -/
structure CCoinsViewCache where
  cacheCoins : MapTotal.Map COutPoint CCoinsCacheEntry
  flagged : List COutPoint
  hashBlock : Uint256
  cachedCoinsUsage : Int

def CCoinsViewCache.new : CCoinsViewCache := ⟨∅, [], Uint256.zero, 0⟩

/-- A map from outpoints to coins. Of the coins it is told are spent, it keeps
some as empty entries. -/
structure CoinsBase where
  coins : CoinsView
  hashBlock : Uint256
  keepsSpent : COutPoint → Bool

section
variable (mem : ScriptUsage)

def Coin.dynamicMemoryUsage (coin : Coin) : Int := mem.usage coin.out.scriptPubKey

namespace CCoinsViewCache
variable (o : COutPoint) (cache : CCoinsViewCache)

def put (coin : Coin) (dirty fresh : Bool) : CCoinsViewCache :=
  let old := (cache.cacheCoins.lookup o).getD .new
  { cache with
    cacheCoins := cache.cacheCoins.insert o ⟨coin, old.isDirty || dirty, old.isFresh || fresh⟩
    flagged := if !old.isFlagged && (dirty || fresh) then cache.flagged ++ [o] else cache.flagged
    cachedCoinsUsage :=
      cache.cachedCoinsUsage - old.coin.dynamicMemoryUsage mem + coin.dynamicMemoryUsage mem }

def erase : CCoinsViewCache :=
  { cache with
    cacheCoins := cache.cacheCoins.erase o
    flagged := cache.flagged.filter (· ≠ o)
    cachedCoinsUsage := cache.cachedCoinsUsage -
      ((cache.cacheCoins.lookup o).map fun entry => entry.coin.dynamicMemoryUsage mem).getD 0 }

def setClean : CCoinsViewCache :=
  match cache.cacheCoins.lookup o with
  | none => cache
  | some entry =>
    { cache with
      cacheCoins := cache.cacheCoins.insert o ⟨entry.coin, false, false⟩
      flagged := cache.flagged.filter (· ≠ o) }

def clear : CCoinsViewCache := { cache with cacheCoins := ∅, flagged := [], cachedCoinsUsage := 0 }

/-- The entry of an outpoint, with what the view below has for it if it is not
in the cache yet, and the caches afterwards. -/
def fetchCoin (lower : List CCoinsViewCache) (below : Option Coin × List CCoinsViewCache) :
    Option CCoinsCacheEntry × List CCoinsViewCache :=
  match cache.cacheCoins.lookup o with
  | some entry => (some entry, cache :: lower)
  | none =>
    match below.1 with
    | none => (none, cache :: below.2)
    | some coin =>
      (some ⟨coin, false, coin.isSpent⟩, cache.put mem o coin false coin.isSpent :: below.2)

def writeEntry (us : CCoinsViewCache) (o : COutPoint) (entry : CCoinsCacheEntry) :
    Except CoinsError CCoinsViewCache :=
  if !entry.isDirty then pure us
  else
    match us.cacheCoins.lookup o with
    | none =>
      if entry.isFresh && entry.coin.isSpent then pure us
      else pure (us.put mem o entry.coin true entry.isFresh)
    | some ours =>
      if entry.isFresh && !ours.coin.isSpent then
        throw (.logicError "FRESH flag misapplied to coin that exists in parent cache")
      else if ours.isFresh && entry.coin.isSpent then pure (us.erase mem o)
      else pure (us.put mem o entry.coin true false)

def nextAndMaybeErase (willErase : Bool) (entry : CCoinsCacheEntry) :
    Except CoinsError CCoinsViewCache :=
  if willErase then pure cache
  else if entry.coin.isSpent then
    if entry.coin.dynamicMemoryUsage mem ≠ 0 then throw .assertion else pure (cache.erase mem o)
  else pure (cache.setClean o)

def writeFlagged {σ : Type} (write : σ → COutPoint → CCoinsCacheEntry → Except CoinsError σ)
    (willErase : Bool) : List COutPoint → CCoinsViewCache → σ → Except CoinsError (CCoinsViewCache × σ)
  | [], cache, us => pure (cache, us)
  | o :: flagged, cache, us =>
    match cache.cacheCoins.lookup o with
    | none => writeFlagged write willErase flagged cache us
    | some entry => do
      let us ← write us o entry
      let cache ← cache.nextAndMaybeErase mem o willErase entry
      writeFlagged write willErase flagged cache us

/-- `Flush` erases the cache, and `Sync` keeps the coins that are not spent. -/
def writeDown {σ : Type} (write : σ → COutPoint → CCoinsCacheEntry → Except CoinsError σ)
    (willErase : Bool) (us : σ) : Except CoinsError (CCoinsViewCache × σ) := do
  let (cache, us) ← writeFlagged mem write willErase cache.flagged cache us
  if willErase then pure (cache.clear, us)
  else if cache.flagged ≠ [] then
    throw (.logicError "Not all unspent flagged entries were cleared")
  else pure (cache, us)

end CCoinsViewCache

def CoinsBase.writeEntry (base : CoinsBase) (o : COutPoint) (entry : CCoinsCacheEntry) : CoinsBase :=
  if !entry.isDirty then base
  else if entry.coin.isSpent && !base.keepsSpent o then { base with coins := base.coins.erase o }
  else { base with coins := base.coins.insert o entry.coin }

structure CoinsStack where
  layers : List CCoinsViewCache
  base : CoinsBase

namespace CoinsStack

def getCoinFrom (base : CoinsBase) (o : COutPoint) : List CCoinsViewCache → Option Coin × List CCoinsViewCache
  | [] => (base.coins.lookup o, [])
  | cache :: lower =>
    let found := cache.fetchCoin mem o lower (getCoinFrom base o lower)
    ((found.1.map CCoinsCacheEntry.coin).filter fun coin => !coin.isSpent, found.2)

variable (stack : CoinsStack)

def getCoin (o : COutPoint) : Option Coin × CoinsStack :=
  let found := getCoinFrom mem stack.base o stack.layers
  (found.1, { stack with layers := found.2 })

def haveCoin (o : COutPoint) : Bool × CoinsStack :=
  let found := getCoin mem stack o
  (found.1.isSome, found.2)

def addCoin (o : COutPoint) (coin : Coin) (possibleOverwrite : Bool) : Except CoinsError CoinsStack :=
  match stack.layers with
  | [] => pure stack
  | cache :: lower =>
    if coin.isSpent then throw .assertion
    else if isUnspendable coin.out.scriptPubKey then pure stack
    else
      let old := (cache.cacheCoins.lookup o).getD .new
      if !possibleOverwrite && !old.coin.isSpent then
        throw (.logicError "Attempted to overwrite an unspent coin (when possible_overwrite is false)")
      else
        let fresh := !possibleOverwrite && !old.isDirty
        pure { stack with layers := cache.put mem o coin true fresh :: lower }

/-- Whether there was an entry for the coin, and the coin that was in it. -/
def spendCoin (o : COutPoint) : Option Coin × CoinsStack :=
  match stack.layers with
  | [] => (none, stack)
  | cache :: lower =>
    match cache.fetchCoin mem o lower (getCoinFrom mem stack.base o lower) with
    | (some entry, cache :: lower) =>
      let cache := if entry.isFresh then cache.erase mem o else cache.put mem o .null true false
      (some entry.coin, { stack with layers := cache :: lower })
    | (_, layers) => (none, { stack with layers := layers })

def uncache (o : COutPoint) : CoinsStack :=
  match stack.layers with
  | [] => stack
  | cache :: lower =>
    match cache.cacheCoins.lookup o with
    | none => stack
    | some entry =>
      if entry.isFlagged then stack else { stack with layers := cache.erase mem o :: lower }

def batchWrite (willErase : Bool) : Except CoinsError CoinsStack :=
  match stack.layers with
  | [] => pure stack
  | [cache] => do
    let (cache', base) ← cache.writeDown mem (fun base o entry => pure (base.writeEntry o entry))
      willErase stack.base
    pure ⟨[cache'], { base with hashBlock := cache.hashBlock }⟩
  | cache :: parent :: lower => do
    let (cache', parent) ← cache.writeDown mem (CCoinsViewCache.writeEntry mem) willErase parent
    pure ⟨cache' :: { parent with hashBlock := cache.hashBlock } :: lower, stack.base⟩

def sync : Except CoinsError CoinsStack := batchWrite mem stack false

def flush : Except CoinsError CoinsStack := batchWrite mem stack true

def atLayer (call : CoinsStack → Except CoinsError CoinsStack) :
    Nat → CoinsStack → Except CoinsError CoinsStack
  | 0, stack => call stack
  | k + 1, stack =>
    match stack.layers with
    | [] => pure stack
    | cache :: lower => do
      let below ← atLayer call k { stack with layers := lower }
      pure { below with layers := cache :: below.layers }

end CoinsStack

/-- A call. Coins are added and spent in the uppermost cache only. -/
inductive CoinsOp where
  | addCoin (o : COutPoint) (coin : Coin) (possibleOverwrite : Bool)
  | spendCoin (o : COutPoint)
  | getCoin (layer : Nat) (o : COutPoint)
  | haveCoin (layer : Nat) (o : COutPoint)
  | uncache (layer : Nat) (o : COutPoint)
  | sync (layer : Nat)
  | flush (layer : Nat)

def CoinsOp.apply : CoinsOp → CoinsStack → Except CoinsError CoinsStack
  | .addCoin o coin possibleOverwrite, stack => stack.addCoin mem o coin possibleOverwrite
  | .spendCoin o, stack => pure (stack.spendCoin mem o).2
  | .getCoin layer o, stack => stack.atLayer (fun stack => pure (stack.getCoin mem o).2) layer
  | .haveCoin layer o, stack => stack.atLayer (fun stack => pure (stack.haveCoin mem o).2) layer
  | .uncache layer o, stack => stack.atLayer (fun stack => pure (stack.uncache mem o)) layer
  | .sync layer, stack => stack.atLayer (CoinsStack.sync mem) layer
  | .flush layer, stack => stack.atLayer (CoinsStack.flush mem) layer

def CoinsStack.run (stack : CoinsStack) (ops : List CoinsOp) : Except CoinsError CoinsStack :=
  ops.foldlM (fun stack op => op.apply mem stack) stack
end

def CoinsOp.applyPlain (op : CoinsOp) (coins : COutPoint → Option Coin) : COutPoint → Option Coin :=
  match op with
  | .addCoin o coin _ =>
    if isUnspendable coin.out.scriptPubKey then coins else Function.update coins o (some coin)
  | .spendCoin o => Function.update coins o none
  | _ => coins

end Byze
