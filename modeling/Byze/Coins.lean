import Byze.CheckBlock
import Byze.Lib.MapTotal
import Byze.VerifyScript

/-! The unspent outputs, and what a transaction does to them: the checks of its
inputs, with the amounts added up, and the coins it spends and creates. -/

namespace Byze

structure Coin where
  out : CTxOut
  fCoinBase : Bool
  nHeight : Nat
  deriving DecidableEq

def Coin.isSpent (coin : Coin) : Bool := coin.out.nValue = -1

abbrev CoinsView := MapTotal.Map COutPoint Coin

/-- How the connection of a block ends early: the block is rejected, an
assertion fails, an exception is thrown, or an amount leaves its type. -/
inductive ConnectStop where
  | reject (r : BlockReject)
  | assertion
  | exception (what : String)
  | overflow
  deriving DecidableEq

abbrev Connect := Except ConnectStop

def rejectBlock {α : Type} (reason : String) : Connect α := throw (.reject ⟨.consensus, reason⟩)

def addAmount (a b : Int) : Connect Int :=
  if -2 ^ 63 ≤ a + b ∧ a + b < 2 ^ 63 then pure (a + b) else throw .overflow

def sumValueOut : Int → List CTxOut → Connect Int
  | nValueOut, [] => pure nValueOut
  | nValueOut, txout :: vout =>
    if !moneyRange txout.nValue then throw (.exception "GetValueOut: value out of range")
    else do
      let sum ← addAmount nValueOut txout.nValue
      if !moneyRange sum then throw (.exception "GetValueOut: value out of range")
      else sumValueOut sum vout

def CTransaction.getValueOut (tx : CTransaction) : Connect Int := sumValueOut 0 tx.vout

def coinbaseMaturity : Nat := 100

namespace CoinsView
variable (view : CoinsView)

def haveCoin (outpoint : COutPoint) : Bool := (view.lookup outpoint).isSome

def haveInputs (tx : CTransaction) : Bool :=
  tx.isCoinBase || tx.vin.all fun txin => haveCoin view txin.prevout

def sumInputs (nSpendHeight : Nat) : Int → List CTxIn → Connect Int
  | nValueIn, [] => pure nValueIn
  | nValueIn, txin :: vin =>
    match view.lookup txin.prevout with
    | none => throw .assertion
    | some coin =>
      if coin.fCoinBase ∧ (nSpendHeight : Int) - coin.nHeight < coinbaseMaturity then
        rejectBlock "bad-txns-premature-spend-of-coinbase"
      else do
        let nValueIn ← addAmount nValueIn coin.out.nValue
        if !moneyRange coin.out.nValue || !moneyRange nValueIn then
          rejectBlock "bad-txns-inputvalues-outofrange"
        else sumInputs nSpendHeight nValueIn vin

def checkTxInputs (tx : CTransaction) (nSpendHeight : Nat) : Connect Int := do
  if !haveInputs view tx then rejectBlock "bad-txns-inputs-missingorspent"
  else
    let nValueIn ← sumInputs view nSpendHeight 0 tx.vin
    let valueOut ← tx.getValueOut
    if nValueIn < valueOut then rejectBlock "bad-txns-in-belowout"
    else
      let txfee ← addAmount nValueIn (-valueOut)
      if !moneyRange txfee then rejectBlock "bad-txns-fee-outofrange" else pure txfee

end CoinsView

def isUnspendable (script : CScript) : Bool := script.head? = some 0x6a || script.length > maxScriptSize

section
variable (fetched : COutPoint → Bool)

/-- A coin that is there already is only noticed when the cache has `fetched`
it, and then it must be allowed to overwrite it. -/
def addCoin (outpoint : COutPoint) (coin : Coin) (possibleOverwrite : Bool) (view : CoinsView) :
    Connect CoinsView :=
  if coin.out.nValue = -1 then throw .assertion
  else if isUnspendable coin.out.scriptPubKey then pure view
  else if !possibleOverwrite && view.haveCoin outpoint && fetched outpoint then
    throw (.exception "Attempted to overwrite an unspent coin (when possible_overwrite is false)")
  else pure (view.insert outpoint coin)

def addCoinsFrom (txid : Uint256) (fCoinbase : Bool) (nHeight : Nat) :
    Nat → List CTxOut → CoinsView → Connect CoinsView
  | _, [], view => pure view
  | n, txout :: vout, view => do
    let view ← addCoin fetched ⟨txid, UInt32.ofNat n⟩ ⟨txout, fCoinbase, nHeight⟩ fCoinbase view
    addCoinsFrom txid fCoinbase nHeight (n + 1) vout view

def addCoins (h : Hashes) (tx : CTransaction) (nHeight : Nat) (view : CoinsView) :
    Connect CoinsView :=
  addCoinsFrom fetched (tx.getHash h) tx.isCoinBase nHeight 0 tx.vout view

def spendCoins : List CTxIn → CoinsView → Connect CoinsView
  | [], view => pure view
  | txin :: vin, view =>
    if view.haveCoin txin.prevout then spendCoins vin (view.erase txin.prevout)
    else throw .assertion

def updateCoins (h : Hashes) (tx : CTransaction) (nHeight : Nat) (view : CoinsView) :
    Connect CoinsView := do
  let view ← if tx.isCoinBase then pure view else spendCoins tx.vin view
  addCoins fetched h tx nHeight view
end

end Byze
