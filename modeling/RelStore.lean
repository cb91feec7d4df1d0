import RelStore.Database.Save
import RelStore.Database.Statement
import RelStore.Proofs.BTree.Alike
import RelStore.Proofs.BTree.Packing
import RelStore.Proofs.Database.Select
import RelStore.Proofs.FileTree.Directory
import RelStore.Proofs.Table.Basic
import RelStore.Proofs.TableFile.Header
import RelStore.Table.Shelf
import RelStore.Proofs.FileTree.Contents
import RelStore.Proofs.DataDirectory.Files
import RelStore.Proofs.Database.Requests
import RelStore.Proofs.Table.Integrity
import RelStore.Proofs.DataDirectory.Manifest
import RelStore.Proofs.Database.Regular
import RelStore.Proofs.Database.Integrity
import RelStore.Proofs.Database.Save
import RelStore.Proofs.Database.Session
import RelStore.Proofs.Agreement
import RelStore.Proofs.Query.Join
import RelStore.Proofs.Query.Failures
import RelStore.Proofs.Query.SetAlgebra
import RelStore.Proofs.Query.Twins
import RelStore.Proofs.Query.TwinSelections
import RelStore.Proofs.Database.Twins
import RelStore.Proofs.BTree.Balance
import RelStore.Proofs.BTree.Ranges
import RelStore.Proofs.Table.Views
import RelStore.Proofs.Database.References
import RelStore.Proofs.TableFile.Normal
import RelStore.Proofs.Table.Alike
import RelStore.Proofs.Table.Answers
import RelStore.Proofs.Database.Proper
import RelStore.Proofs.Database.Opening
import RelStore.Proofs.Database.InPlace
import RelStore.Proofs.Database.Atomic
import RelStore.Proofs.Query.Columns
