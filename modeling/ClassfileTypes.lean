import ClassfileTypes.Json.Model
import ClassfileTypes.Session
import ClassfileTypes.Proofs.Erasure
import ClassfileTypes.Proofs.SelfDelimiting
import ClassfileTypes.Proofs.DescriptorReading
import ClassfileTypes.Proofs.SignatureText
import ClassfileTypes.Proofs.SignatureGrammar
import ClassfileTypes.Proofs.SignatureReading
import ClassfileTypes.Proofs.Inference
import ClassfileTypes.Proofs.JsonSpelling
import ClassfileTypes.Proofs.JsonRoundTrip
import ClassfileTypes.Proofs.StrictPolicy
import ClassfileTypes.Proofs.ScopeLookup
import ClassfileTypes.Proofs.FlatScopes
import ClassfileTypes.Proofs.BracketErasure
import ClassfileTypes.Proofs.SectionText
import ClassfileTypes.Proofs.BranchwiseSignature
import ClassfileTypes.Proofs.SectionReading
import ClassfileTypes.Proofs.OuterGrowth
import ClassfileTypes.Proofs.Substitution
import ClassfileTypes.Proofs.Settling
import ClassfileTypes.Proofs.Noninterference
import ClassfileTypes.Proofs.TidySignature
import ClassfileTypes.Proofs.ArrayLevels
import ClassfileTypes.Proofs.BinaryName
import ClassfileTypes.Proofs.ElementLookup
import ClassfileTypes.Proofs.ArraySignature
import ClassfileTypes.Proofs.Writers
import ClassfileTypes.Proofs.CollapsedText
import ClassfileTypes.Proofs.SettingsText
import ClassfileTypes.Proofs.DocumentKeys
import ClassfileTypes.Proofs.BuilderRuns
