import ContractCode.Configuration
import ContractCode.Proofs.CompiledText
import ContractCode.Proofs.DeclaredRanges
import ContractCode.Proofs.ExactMatch
import ContractCode.Proofs.FaithfulValues
import ContractCode.Proofs.LocatedChunks
import ContractCode.Proofs.MetadataDifferences
import ContractCode.Verification
import ContractCode.Proofs.Idempotence
import ContractCode.Proofs.ArgumentsOffset
import ContractCode.Proofs.ReportedLibraries
import ContractCode.Proofs.VyperImmutables
import ContractCode.Proofs.CodesAlone
import ContractCode.Proofs.Effects
import ContractCode.Proofs.NearestChunks
import ContractCode.Proofs.ResolverOrder
import ContractCode.Proofs.Coherence
import ContractCode.Proofs.TrailingArguments
import ContractCode.Proofs.ChunkPositions
import ContractCode.Proofs.LongerCode
import ContractCode.Proofs.Documents
import ContractCode.Proofs.CheckedAccess
import ContractCode.Proofs.RegisteredChunks
import ContractCode.Proofs.SuffixConventions
import ContractCode.Proofs.CheckedChunks
import ContractCode.Proofs.CheckedMatching
import ContractCode.Proofs.ImmutableOverlay
import ContractCode.Proofs.ChunkBoundaries
import ContractCode.Proofs.SimultaneousSubstitution
import ContractCode.Proofs.PlaceholderText
import ContractCode.Proofs.CanonicalArguments
import ContractCode.Proofs.CompiledGrammar
import ContractCode.Proofs.StackedChunks
import ContractCode.Proofs.StyleSelection
import ContractCode.Proofs.TruncatedMetadata
import ContractCode.Proofs.OpenContainers
import ContractCode.Proofs.MetadataPasses
import ContractCode.Proofs.WellFormedItems
import ContractCode.Proofs.StrippedMetadata
import ContractCode.Proofs.LoadedSettings
import ContractCode.Proofs.VerifiedCodes
