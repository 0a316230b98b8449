import SuwappuRevm.Contracts.ValidatorRegistry

/-!
# The header oracle contract and the two precompiles it calls

`SuwappuDagQuorumHeaderOracle.submitHeader` counts the registered stake of the public keys whose
signature the ML-DSA-65 precompile accepts over the BLAKE3 digest of the header, and stores the
state root once the count reaches the registry's threshold. The hashes and the signature check
are parameters. A precompile call is given the gas the caller forwards to it and returns nothing
when that is too little.
-/

namespace SuwappuRevm.Contracts

open Foundations

/-- The external functions: `keccak256`, the 32-byte BLAKE3 hash and the 32-byte answer of
`suwappu_mldsa_precompile::verify`. -/
structure Crypto where
  keccak256 : Bytes → Word
  blake3Hash : Bytes → Word
  mldsaVerify : Bytes → Word

/-- The failure of the modelled precompiles. -/
inductive PrecompileError
  | outOfGas
  deriving Repr, DecidableEq

/-- The gas a precompile used and the bytes it returned. -/
structure PrecompileOutput where
  gasUsed : ℕ
  bytes : Bytes

/-- Gas price of the ML-DSA-65 precompile. -/
def suwappuMldsa65VerifyGas : ℕ := 12000

/-- Base gas price of the BLAKE3 precompile. -/
def suwappuBlake3BaseGas : ℕ := 30

/-- Gas price per 32-byte word of the BLAKE3 precompile. -/
def suwappuBlake3WordGas : ℕ := 6

/-- `suwappu_mldsa65_verify_run`, the precompile at `0x0101`. -/
def suwappuMldsa65VerifyRun (mldsaVerify : Bytes → Word) (input : Bytes) (gasLimit : ℕ) :
    Except PrecompileError PrecompileOutput := do
  failIf (suwappuMldsa65VerifyGas > gasLimit) .outOfGas
  return ⟨suwappuMldsa65VerifyGas, (mldsaVerify input).toBytes⟩

/-- `suwappu_blake3_run`, the precompile at `0x0102`. -/
def suwappuBlake3Run (blake3Hash : Bytes → Word) (input : Bytes) (gasLimit : ℕ) :
    Except PrecompileError PrecompileOutput := do
  let words := (input.length + 31) / 32
  let gasUsed := suwappuBlake3BaseGas + suwappuBlake3WordGas * words
  failIf (gasUsed > gasLimit) .outOfGas
  return ⟨gasUsed, (blake3Hash input).toBytes⟩

/-- `staticcall` to a precompile: a failed call returns no bytes. -/
def staticcall (run : Bytes → ℕ → Except PrecompileError PrecompileOutput) (input : Bytes)
    (gas : ℕ) : Bool × Bytes :=
  match run input gas with
  | .ok out => (true, out.bytes)
  | .error _ => (false, [])

/-- The reverts of the oracle; `registry` and `panic` are those of the registry and of checked
arithmetic. -/
inductive OracleError
  | lengthMismatch
  | notSorted
  | precompileFailed
  | belowQuorum (sigStake needed : ℕ)
  | registry (e : RegistryError)
  | panic
  deriving Repr, DecidableEq

/-- The oracle: its own address, its immutable chain id and the finalized state roots. -/
structure Oracle where
  address : Address
  chainId : ℕ
  headerStateRoot : ℕ → ℕ → Word

/-- Gas forwarded to the digest call and to the `i`-th verification. -/
structure ForwardedGas where
  blake3 : ℕ
  mldsa : ℕ → ℕ

section Calls

variable (crypto : Crypto)

/-- `HEADER_DOMAIN`. -/
def headerDomain : Word := crypto.keccak256 "SUWAPPU_DAG_HEADER_V1".toUTF8.toList

/-- The packed 148-byte header preimage. -/
def headerPreimage (networkId : ℕ) (oracle : Address) (blockNumber : ℕ) (stateRoot : Word) :
    Bytes :=
  (headerDomain crypto).toBytes ++ beBytes 32 networkId ++ beBytes 20 oracle.val ++
    beBytes 32 blockNumber ++ stateRoot.toBytes

/-- `headerDigest`. -/
def headerDigest (d : Deployment) (o : Oracle) (gas : ForwardedGas) (blockNumber : ℕ)
    (stateRoot : Word) : Except OracleError Word := do
  let preimage := headerPreimage crypto d.networkId o.address blockNumber stateRoot
  let (ok, out) := staticcall (suwappuBlake3Run crypto.blake3Hash) preimage gas.blake3
  failIf (¬ok ∨ out.length ≠ 32) .precompileFailed
  return Word.ofBytes out

/-- The verification call of one signature: the answer must be 32 bytes, and the signature is
valid when the call succeeded and the last byte is `0x01`. -/
def signatureValid (gas : ℕ) (pubkey sig : Bytes) (digest : Word) : Except OracleError Bool := do
  let (ok, out) := staticcall (suwappuMldsa65VerifyRun crypto.mldsaVerify)
    (pubkey ++ sig ++ digest.toBytes) gas
  failIf (out.length ≠ 32) .precompileFailed
  return ok && out[31]? == some 1

/-- Add the key's stake at the epoch when its signature is valid. -/
def addStake (r : Registry) (epoch : ℕ) (pkHash : Word) (valid : Bool) (sigStake : ℕ) :
    Except OracleError ℕ :=
  if valid then checkedAdd .panic sigStake (r.stakeAt epoch pkHash) else .ok sigStake

/-- The body of the signature loop: whether the entry counts, and the stake signed so far. -/
def countSignature (r : Registry) (gas : ForwardedGas) (epoch : ℕ) (digest : Word) (i : ℕ)
    (lastHash : Word) (sigStake : ℕ) (pubkey sig : Bytes) : Except OracleError (Bool × ℕ) := do
  let pkHash := crypto.keccak256 pubkey
  failIf (pkHash ≤ lastHash) .notSorted
  let valid ← signatureValid crypto (gas.mldsa i) pubkey sig digest
  let sigStake ← addStake r epoch pkHash valid sigStake
  return (valid, sigStake)

/-- The signature loop from index `i`, with the running `lastHash` and `sigStake`. -/
def countSignatures (r : Registry) (gas : ForwardedGas) (epoch : ℕ) (digest : Word) :
    ℕ → Word → ℕ → List (Bytes × Bytes) → Except OracleError ℕ
  | _, _, sigStake, [] => .ok sigStake
  | i, lastHash, sigStake, (pubkey, sig) :: rest => do
    let (_, sigStake) ← countSignature crypto r gas epoch digest i lastHash sigStake pubkey sig
    countSignatures r gas epoch digest (i + 1) (crypto.keccak256 pubkey) sigStake rest

/-- `submitHeader`. -/
def submitHeader (d : Deployment) (r : Registry) (o : Oracle) (gas : ForwardedGas)
    (blockNumber : ℕ) (stateRoot : Word) (epoch : ℕ) (pubkeys sigs : List Bytes) :
    Except OracleError Oracle := do
  failIf (pubkeys.length ≠ sigs.length) .lengthMismatch
  let digest ← headerDigest crypto d o gas blockNumber stateRoot
  let sigStake ← countSignatures crypto r gas epoch digest 0 0 0 (pubkeys.zip sigs)
  let needed ← (r.quorumThreshold epoch).mapError .registry
  failIf (sigStake < needed) (.belowQuorum sigStake needed)
  let roots := Function.update (o.headerStateRoot o.chainId) blockNumber stateRoot
  return { o with headerStateRoot := Function.update o.headerStateRoot o.chainId roots }

/-- The two contracts together. -/
structure Bridge where
  registry : Registry
  oracle : Oracle

/-- A transaction on one of the two contracts. -/
inductive BridgeCall
  | registry (tx : RegistryTx)
  | submit (gas : ForwardedGas) (blockNumber : ℕ) (stateRoot : Word) (epoch : ℕ)
      (pubkeys sigs : List Bytes)

/-- One transaction on the pair of contracts. -/
def bridgeStep (d : Deployment) (s : Bridge) : BridgeCall → Except OracleError Bridge
  | .registry tx => do
    let registry ← (registryStep crypto.keccak256 d s.registry tx).mapError .registry
    return { s with registry }
  | .submit gas blockNumber stateRoot epoch pubkeys sigs => do
    let oracle ← submitHeader crypto d s.registry s.oracle gas blockNumber stateRoot epoch pubkeys
      sigs
    return { s with oracle }

end Calls

end SuwappuRevm.Contracts
