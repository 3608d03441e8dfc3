import JarRemap.Attribute.Annotated
import JarRemap.Attribute.Table
import JarRemap.Host.Directory
import JarRemap.Main
import JarRemap.Proofs.Codec.Body
import JarRemap.Proofs.Codec.ShortestForm
import JarRemap.Proofs.DescriptorRenaming
import JarRemap.Proofs.SelfDelimiting
import JarRemap.Proofs.Pool.Directory
import JarRemap.Proofs.Archive.Path
import JarRemap.Proofs.Run.DistinctPaths
import JarRemap.Proofs.Run.Places
import JarRemap.Proofs.Run.TableFile
import JarRemap.Proofs.Run.WrittenClass
import JarRemap.Proofs.Rename.Idle
import JarRemap.Proofs.Rename.Inverse
import JarRemap.Proofs.Rename.Linkage
import JarRemap.Proofs.Rename.RenamedClass
import JarRemap.Proofs.Rename.Resolver
import JarRemap.Proofs.RenameTable.ClosestRow
import JarRemap.Proofs.RenameTable.Field
import JarRemap.Proofs.RenameTable.Formats
import JarRemap.Proofs.RenameTable.Involution
import JarRemap.Proofs.RenameTable.Loaded
import JarRemap.Proofs.RenameTable.SimpleName
import JarRemap.Proofs.Repair.RecordSignature
import JarRemap.Proofs.Repair.VariableNames
import JarRemap.Proofs.Signature.Composed
import JarRemap.Proofs.Signature.Erasure
import JarRemap.Proofs.Signature.InPlaceAgrees
