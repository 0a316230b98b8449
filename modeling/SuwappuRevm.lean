import SuwappuRevm.Contracts.RegistryLiveness
import SuwappuRevm.Contracts.RegistryTotals
import SuwappuRevm.Contracts.OracleDigest
import SuwappuRevm.Contracts.HeaderProvenance
import SuwappuRevm.Memory.FrameGas
import SuwappuRevm.Staking.GasLaw
import SuwappuRevm.Staking.ReaderAgreement
import SuwappuRevm.Staking.Dust
import SuwappuRevm.Staking.Registration
import SuwappuRevm.Staking.Snapshots
import SuwappuRevm.Staking.Withdrawals
import SuwappuRevm.Staking.Getters
import SuwappuRevm.Staking.Ownership
import SuwappuRevm.Staking.Standing
import SuwappuRevm.Staking.RecordStore
import SuwappuRevm.Staking.Views
import SuwappuRevm.Staking.RecordSettlement
import SuwappuRevm.Staking.Shell
import SuwappuRevm.Staking.Twins
import SuwappuRevm.Staking.ExtraSettlements
import SuwappuRevm.Staking.FrequentSettlement
import SuwappuRevm.Staking.Operations
import SuwappuRevm.Staking.Commutation
import SuwappuRevm.Staking.RewardShares
import SuwappuRevm.Staking.FairShares
import SuwappuRevm.Staking.Acceptance
import SuwappuRevm.Staking.BlockLifecycle
import SuwappuRevm.Foundations.Simulation
import SuwappuRevm.Node.TransactionHash
import SuwappuRevm.Node.RpcSessions
import SuwappuRevm.Reserve.Precompile
import SuwappuRevm.Reserve.DipWindow
import SuwappuRevm.Builtins.Provider
