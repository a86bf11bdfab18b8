import Nerion.Basic
import Nerion.JsNumber
import Nerion.JsString
import Nerion.AuditPath
import Nerion.Merkle
import Nerion.MerkleShape
import Nerion.MerkleComplete
import Nerion.MerkleSound
import Nerion.TransparencyLog
import Nerion.Crypto
import Nerion.Capability
import Nerion.Kernel
import Nerion.WeightedQuorum
import Nerion.JsMap
import Nerion.Vrf
import Nerion.Sortition
import Nerion.Leader
import Nerion.Chain
import Nerion.Symbolic
import Nerion.Equivocation
import Nerion.Gossip
import Nerion.Portable
import Nerion.GossipSteps
import Nerion.Network
import Nerion.Agreement
import Nerion.Counting
import Nerion.GossipSettled
import Nerion.GossipBounds
import Nerion.GossipPrune
import Nerion.GossipLiveness
import Nerion.ByteString
import Nerion.EvmProfile
import Nerion.EvmAccountability
import Nerion.EvmErrors
import Nerion.EvmMessage
import Nerion.FinalityVerifier
import Nerion.EvmParity
import Nerion.JsValue
import Nerion.Slashing
import Nerion.ModularPower
import Nerion.PrimeGroup
import Nerion.RangeProof
import Nerion.PolicyProof
import Nerion.Governance
import Nerion.QuorumReceipt
import Nerion.OtsState
import Nerion.JsonText
import Nerion.Metering
import Nerion.PersistentLog
import Nerion.RangeComplete
import Nerion.VrfUnique
import Nerion.Delegation
import Nerion.Receipt
import Nerion.TreeHead
import Nerion.Issuance
import Nerion.Matching
import Nerion.Attest
import Nerion.Caveat
import Nerion.CaveatForgery
import Nerion.Node
import Nerion.JsDouble
import Nerion.Profile
import Nerion.SetMembership
import Nerion.VrfComplete
import Nerion.LeaderDraw
import Nerion.NumberText
import Nerion.SplitView
import Nerion.SlashingParity
import Nerion.GossipBus
import Nerion.GossipQuiescence
import Nerion.Json
import Nerion.PortableJson
import Nerion.PortableTransport
import Nerion.ByteFraming
import Nerion.Transcript
import Nerion.OtsRemaining
import Nerion.GossipIndex
import Nerion.ConsensusRefinement
import Nerion.GossipProgress
import Nerion.Sdk
import Nerion.AppendOnly
import Nerion.Envelope
import Nerion.Replay
import Nerion.SignedObjects
import Nerion.BoundAmount
import Nerion.Deployment
import Nerion.KernelSpec
import Nerion.SealingProvider
