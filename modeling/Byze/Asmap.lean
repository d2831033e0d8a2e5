import Mathlib.Algebra.Ring.Nat
import Mathlib.Data.Nat.Size

/-! Compressed maps from addresses to networks: a map that passes the sanity
check can be interpreted on every address of the checked length. -/

namespace Byze.Asmap

/-- A value and the bits after it. There is none where the bits end inside it. -/
def decodeMantissa : Nat → Nat → List Bool → Option (Nat × List Bool)
  | 0, val, pos => some (val, pos)
  | _ + 1, _, [] => none
  | size + 1, val, bit :: pos => decodeMantissa size (val + if bit then 2 ^ size else 0) pos

def decodeBits : Nat → List Nat → List Bool → Option (Nat × List Bool)
  | _, [], _ => none
  | val, [size], pos => decodeMantissa size val pos
  | _, _ :: _ :: _, [] => none
  | val, size :: next :: sizes, bit :: pos =>
    if bit then decodeBits (val + 2 ^ size) (next :: sizes) pos else decodeMantissa size val pos

inductive Instruction where
  | RETURN | JUMP | MATCH | DEFAULT
  deriving DecidableEq

def instruction : Nat → Instruction
  | 0 => .RETURN
  | 1 => .JUMP
  | 2 => .MATCH
  | _ => .DEFAULT

def decodeType : List Bool → Option (Nat × List Bool) := decodeBits 0 [0, 0, 1]
def decodeASN : List Bool → Option (Nat × List Bool) := decodeBits 1 (List.range' 15 10)
def decodeMatch : List Bool → Option (Nat × List Bool) := decodeBits 2 (List.range' 1 8)
def decodeJump : List Bool → Option (Nat × List Bool) := decodeBits 17 (List.range' 5 26)

def decodeArgument : Instruction → List Bool → Option (Nat × List Bool)
  | .RETURN => decodeASN
  | .JUMP => decodeJump
  | .MATCH => decodeMatch
  | .DEFAULT => decodeASN

/-- An instruction with its argument. There is none at the end of the map either. -/
def decodeInstruction (pos : List Bool) : Option (Instruction × Nat × List Bool) := do
  let (type, pos) ← decodeType pos
  let (argument, pos) ← decodeArgument (instruction type) pos
  pure (instruction type, argument, pos)

/-- Whether the input starts with the bits of the pattern below its leading one. -/
def matchInput (pattern matchlen : Nat) (ip : List Bool) : Bool :=
  (List.range matchlen).all fun bit => ip[bit]? = some (pattern.testBit (matchlen - 1 - bit))

/-- The network of an address, of which `ip` are the bits not yet read. There is
none where the loop is left for the assertion. -/
def interpretLoop : Nat → List Bool → List Bool → Nat → Option Nat
  | 0, _, _, _ => none
  | rounds + 1, pos, ip, defaultAsn =>
    match decodeInstruction pos with
    | none => none
    | some (.RETURN, asn, _) => some asn
    | some (.JUMP, jump, pos) =>
      match ip with
      | [] => none
      | bit :: ip =>
        if jump ≥ pos.length then none
        else interpretLoop rounds (if bit then pos.drop jump else pos) ip defaultAsn
    | some (.MATCH, pattern, pos) =>
      let matchlen := pattern.size - 1
      if ip.length < matchlen then none
      else if matchInput pattern matchlen ip then
        interpretLoop rounds pos (ip.drop matchlen) defaultAsn
      else some defaultAsn
    | some (.DEFAULT, asn, pos) => interpretLoop rounds pos ip asn

/-- The number of input bits is kept in 8 bits. -/
def interpret (asmap ip : List Bool) : Option Nat :=
  interpretLoop asmap.length asmap (ip.drop (ip.length - ip.length % 2 ^ 8)) 0

/-- A position in the map, as an unsigned integer of 32 bits. -/
def offset (asmap pos : List Bool) (jump : Nat) : Nat :=
  (asmap.length - pos.length + jump) % 2 ^ 32

/-- `jumps` is the stack of pending jumps, the last one first: the target and
the input bits that are left there. -/
def sanityLoop (asmap : List Bool) :
    Nat → List Bool → Nat → List (Nat × Nat) → Instruction → Bool → Bool
  | 0, _, _, _, _, _ => false
  | rounds + 1, pos, bits, jumps, prevopcode, hadIncompleteMatch =>
    if jumps.head?.any fun jump => offset asmap pos 0 ≥ jump.1 then false
    else
      match decodeInstruction pos with
      | none => false
      | some (.RETURN, _, pos) =>
        if prevopcode = .DEFAULT then false
        else
          match jumps with
          | [] => pos.length ≤ 7 && pos.all (!·)
          | jump :: jumps =>
            if offset asmap pos 0 ≠ jump.1 then false
            else sanityLoop asmap rounds pos jump.2 jumps .JUMP hadIncompleteMatch
      | some (.JUMP, jump, pos) =>
        if jump > pos.length ∨ bits = 0 then false
        else if jumps.head?.any fun last => offset asmap pos jump ≥ last.1 then false
        else
          sanityLoop asmap rounds pos (bits - 1) ((offset asmap pos jump, bits - 1) :: jumps) .JUMP
            hadIncompleteMatch
      | some (.MATCH, pattern, pos) =>
        let matchlen := pattern.size - 1
        if matchlen < 8 ∧ prevopcode = .MATCH ∧ hadIncompleteMatch then false
        else if bits < matchlen then false
        else sanityLoop asmap rounds pos (bits - matchlen) jumps .MATCH (matchlen < 8)
      | some (.DEFAULT, _, pos) =>
        if prevopcode = .DEFAULT then false
        else sanityLoop asmap rounds pos bits jumps .DEFAULT hadIncompleteMatch

def sanityCheckASMap (asmap : List Bool) (bits : Nat) : Bool :=
  sanityLoop asmap asmap.length asmap bits [] .JUMP false

variable {pos rest asmap : List Bool} {bits argument : Nat}

theorem decodeMantissa_suffix {size val : Nat}
    (h : decodeMantissa size val pos = some (argument, rest)) : rest <:+ pos := by
  induction size generalizing val pos with
  | zero =>
    cases h
    exact List.suffix_refl _
  | succ size ih =>
    cases pos with
    | nil => cases h
    | cons bit pos => exact (ih h).trans (List.suffix_cons bit pos)

theorem decodeBits_suffix {sizes : List Nat} {val : Nat}
    (h : decodeBits val sizes pos = some (argument, rest)) : rest <:+ pos := by
  induction sizes generalizing val pos with
  | nil => cases h
  | cons size sizes ih =>
    cases sizes with
    | nil => exact decodeMantissa_suffix h
    | cons next sizes =>
      cases pos with
      | nil => cases h
      | cons bit pos =>
        rw [decodeBits] at h
        split at h
        · exact (ih h).trans (List.suffix_cons bit pos)
        · exact (decodeMantissa_suffix h).trans (List.suffix_cons bit pos)

theorem decodeArgument_suffix {op : Instruction}
    (h : decodeArgument op pos = some (argument, rest)) : rest <:+ pos := by
  cases op <;> exact decodeBits_suffix h

/-- Reading an instruction moves on by a bit at least. -/
theorem decodeInstruction_suffix {op : Instruction}
    (h : decodeInstruction pos = some (op, argument, rest)) :
    rest <:+ pos ∧ rest.length < pos.length := by
  obtain ⟨⟨type, mid⟩, htype, h⟩ := Option.bind_eq_some_iff.mp h
  obtain ⟨⟨argument, rest⟩, hargument, h⟩ := Option.bind_eq_some_iff.mp h
  cases h
  cases pos with
  | nil => cases htype
  | cons bit pos =>
    have hmid : mid <:+ pos := by
      rw [decodeType, decodeBits] at htype
      split at htype
      · exact decodeBits_suffix htype
      · exact decodeMantissa_suffix htype
    have hrest := (decodeArgument_suffix hargument).trans hmid
    exact ⟨hrest.trans (List.suffix_cons bit pos), Nat.lt_succ_of_le hrest.length_le⟩

/-- From here on the program returns on every input of `bits` bits. -/
def Returns (pos : List Bool) (bits : Nat) : Prop :=
  ∀ rounds ip defaultAsn, pos.length ≤ rounds → ip.length = bits →
    ∃ asn, interpretLoop rounds pos ip defaultAsn = some asn

theorem Returns.ne_nil (h : Returns pos bits) : pos ≠ [] := by
  rintro rfl
  obtain ⟨asn, hnone⟩ := h 0 (List.replicate bits false) 0 (Nat.le_refl _) List.length_replicate
  cases hnone

/-- It is enough to look at the first instruction and the rounds after it. -/
theorem Returns.of_step {op : Instruction}
    (hop : decodeInstruction pos = some (op, argument, rest))
    (h : ∀ rounds ip defaultAsn, rest.length ≤ rounds → ip.length = bits →
      ∃ asn, interpretLoop (rounds + 1) pos ip defaultAsn = some asn) : Returns pos bits := by
  intro rounds ip defaultAsn hrounds hip
  have hlt := (decodeInstruction_suffix hop).2
  cases rounds with
  | zero => omega
  | succ rounds => exact h rounds ip defaultAsn (by omega) hip

theorem Returns.jump (hop : decodeInstruction pos = some (.JUMP, argument, rest))
    (hnext : Returns rest bits) (htarget : Returns (rest.drop argument) bits) :
    Returns pos (bits + 1) := by
  refine of_step hop fun rounds ip defaultAsn hrounds hip => ?_
  have hin : ¬ argument ≥ rest.length := fun hge => htarget.ne_nil (List.drop_eq_nil_of_le hge)
  obtain ⟨bit, ip, rfl⟩ := List.exists_cons_of_length_eq_add_one hip
  have hip' : ip.length = bits := Nat.succ.inj hip
  simp only [interpretLoop, hop, if_neg hin]
  cases bit with
  | false => exact hnext rounds ip defaultAsn hrounds hip'
  | true => exact htarget rounds ip defaultAsn (by rw [List.length_drop]; omega) hip'

theorem Returns.matching (hop : decodeInstruction pos = some (.MATCH, argument, rest))
    (hlen : argument.size - 1 ≤ bits) (hnext : Returns rest (bits - (argument.size - 1))) :
    Returns pos bits := by
  refine of_step hop fun rounds ip defaultAsn hrounds hip => ?_
  have hin : ¬ ip.length < argument.size - 1 := by omega
  simp only [interpretLoop, hop, if_neg hin]
  split
  · exact hnext rounds _ defaultAsn hrounds (by rw [List.length_drop, hip])
  · exact ⟨defaultAsn, rfl⟩

theorem drop_offset (hsize : asmap.length < 2 ^ 31) (hpos : pos <:+ asmap) {jump : Nat}
    (hjump : jump ≤ pos.length) : asmap.drop (offset asmap pos jump) = pos.drop jump := by
  have hle := hpos.length_le
  rw [offset, Nat.mod_eq_of_lt (by omega), ← List.drop_drop, ← List.suffix_iff_eq_drop.mp hpos]

/-- The check reads the map from left to right. It vouches for the rest of the
map and for the targets of all pending jumps. -/
theorem sanityLoop_returns (hsize : asmap.length < 2 ^ 31) {rounds : Nat}
    {jumps : List (Nat × Nat)} {prevopcode : Instruction} {incomplete : Bool} (hpos : pos <:+ asmap)
    (h : sanityLoop asmap rounds pos bits jumps prevopcode incomplete = true) :
    Returns pos bits ∧ ∀ jump ∈ jumps, Returns (asmap.drop jump.1) jump.2 := by
  induction rounds generalizing pos bits jumps prevopcode incomplete with
  | zero => cases h
  | succ rounds ih =>
    rw [sanityLoop] at h
    split at h
    · cases h
    cases hop : decodeInstruction pos with
    | none => simp [hop] at h
    | some r =>
      obtain ⟨op, argument, rest⟩ := r
      have hrest := (decodeInstruction_suffix hop).1.trans hpos
      cases op with
      | RETURN =>
        have hreturns : Returns pos bits :=
          .of_step hop fun _ _ _ _ _ => ⟨argument, by simp [interpretLoop, hop]⟩
        refine ⟨hreturns, ?_⟩
        simp only [hop] at h
        split at h
        · cases h
        cases jumps with
        | nil => simp
        | cons jump jumps =>
          dsimp only at h
          split at h
          · cases h
          next htarget =>
            obtain ⟨hnext, hjumps⟩ := ih hrest h
            have hdrop := drop_offset hsize hrest (Nat.zero_le _)
            rw [not_not.mp htarget] at hdrop
            exact List.forall_mem_cons.mpr ⟨hdrop ▸ hnext, hjumps⟩
      | JUMP =>
        simp only [hop] at h
        split at h
        · cases h
        next hrange =>
          obtain ⟨hjump, hbits⟩ := not_or.mp hrange
          split at h
          · cases h
          obtain ⟨hnext, hjumps⟩ := ih hrest h
          obtain ⟨htarget, hjumps⟩ := List.forall_mem_cons.mp hjumps
          rw [drop_offset hsize hrest (Nat.le_of_not_lt hjump)] at htarget
          have hreturns := Returns.jump hop hnext htarget
          rw [Nat.sub_add_cancel (Nat.pos_of_ne_zero hbits)] at hreturns
          exact ⟨hreturns, hjumps⟩
      | MATCH =>
        simp only [hop] at h
        split at h
        · cases h
        split at h
        · cases h
        next hbits =>
          obtain ⟨hnext, hjumps⟩ := ih hrest h
          exact ⟨.matching hop (Nat.le_of_not_lt hbits) hnext, hjumps⟩
      | DEFAULT =>
        simp only [hop] at h
        split at h
        · cases h
        obtain ⟨hnext, hjumps⟩ := ih hrest h
        refine ⟨.of_step hop fun rounds ip defaultAsn hrounds hip => ?_, hjumps⟩
        simp only [interpretLoop, hop]
        exact hnext rounds ip argument hrounds hip

/-- A checked map gives a network for every address of the checked length. -/
theorem interpret_of_sanityCheckASMap {n : Nat} (hsize : asmap.length < 2 ^ 31) (hn : n ≤ 128)
    (hcheck : sanityCheckASMap asmap n = true) (ip : List Bool) (hip : ip.length = n) :
    ∃ asn, interpret asmap ip = some asn := by
  have hreturns := (sanityLoop_returns hsize (List.suffix_refl asmap) hcheck).1
  refine hreturns asmap.length _ 0 (Nat.le_refl _) ?_
  rw [List.length_drop, Nat.mod_eq_of_lt (by omega)]
  omega

/-- A jump over the network 1 to the same network. -/
def sampleMap : List Bool := true :: false :: List.replicate 40 false

theorem interpret_sampleMap :
    sanityCheckASMap sampleMap 1 = true ∧ ∃ asn, interpret sampleMap [true] = some asn :=
  ⟨by decide, interpret_of_sanityCheckASMap (by decide) (by decide) (by decide) [true] rfl⟩

end Byze.Asmap
