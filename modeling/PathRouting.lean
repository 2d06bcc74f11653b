import PathRouting.Compiled.Exact
import PathRouting.MethodTable.Step
import PathRouting.Params.Reading
import PathRouting.Proofs.MethodTable.Isolation
import PathRouting.Proofs.Priority
import PathRouting.Proofs.Regex.Meaning
import PathRouting.Proofs.Table.FirstMatch
import PathRouting.Proofs.Table.History
import PathRouting.Proofs.Table.Index
import PathRouting.Proofs.Table.Lazy
import PathRouting.Proofs.Query
import PathRouting.Proofs.Filling
import PathRouting.Proofs.Regex.Renaming
import PathRouting.Proofs.Table.Events
import PathRouting.Proofs.Faults
import PathRouting.Proofs.Table.Inserting
import PathRouting.Proofs.Shadowing
import PathRouting.Proofs.OptionalGroup
import PathRouting.Proofs.Table.Log
import PathRouting.Proofs.MethodTable.Rounds
import PathRouting.Proofs.MethodTable.Failing
import PathRouting.Proofs.Trailing
import PathRouting.Proofs.Views
import PathRouting.Proofs.Quoting
import PathRouting.Proofs.Reading
import PathRouting.Proofs.Translation
