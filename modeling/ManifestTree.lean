import ManifestTree.Main
import ManifestTree.Proofs.AmendedArtifacts
import ManifestTree.Proofs.BlankedComments
import ManifestTree.Proofs.BuildHistories
import ManifestTree.Proofs.BuildWrites
import ManifestTree.Proofs.ClosableTags
import ManifestTree.Proofs.CommandChains
import ManifestTree.Proofs.ConfigOutcomes
import ManifestTree.Proofs.DiscoveredFiles
import ManifestTree.Proofs.ErrorPlaces
import ManifestTree.Proofs.FirstFailure
import ManifestTree.Proofs.InlineLeaves
import ManifestTree.Proofs.IntegerLiterals
import ManifestTree.Proofs.LeafCover
import ManifestTree.Proofs.ParsedConditions
import ManifestTree.Proofs.PrintedTokens
import ManifestTree.Proofs.Progress
import ManifestTree.Proofs.QueueHistories
import ManifestTree.Proofs.RecoveredNames
import ManifestTree.Proofs.SecondDefaults
import ManifestTree.Proofs.TagGrammar
import ManifestTree.Proofs.UnsigiledVariables
import ManifestTree.Proofs.VerbatimBodies
