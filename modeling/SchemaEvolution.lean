import SchemaEvolution.Main
import SchemaEvolution.History.Store
import SchemaEvolution.Patch.Status
import SchemaEvolution.Program.Folder
import SchemaEvolution.Schema.Merge
import SchemaEvolution.Schema.Relationship
import SchemaEvolution.Text.WordChar
import SchemaEvolution.Proofs.History.Checkpoint
import SchemaEvolution.Proofs.History.RefusedAppends
import SchemaEvolution.Proofs.Keyed.Lookup
import SchemaEvolution.Proofs.Numeral.Whole
import SchemaEvolution.Proofs.Patch.Parsing
import SchemaEvolution.Proofs.Patch.Exchange
import SchemaEvolution.Proofs.Patch.Commutation
import SchemaEvolution.Proofs.Patch.Repetition
import SchemaEvolution.Proofs.Patch.InPlace
import SchemaEvolution.Proofs.Patch.Path
import SchemaEvolution.Proofs.Patch.Acceptance
import SchemaEvolution.Proofs.Patch.Difference
import SchemaEvolution.Proofs.Patch.Phases
import SchemaEvolution.Proofs.Patch.Status
import SchemaEvolution.Proofs.Patch.Tiers
import SchemaEvolution.Proofs.Patch.Lists
import SchemaEvolution.Proofs.Patch.WellKeyed
import SchemaEvolution.Proofs.Schema.RoundTrip
import SchemaEvolution.Proofs.Schema.Sections
import SchemaEvolution.Proofs.Schema.Merge
import SchemaEvolution.Proofs.Source.WellKeyed
import SchemaEvolution.Proofs.Prisma.Relations
import SchemaEvolution.Proofs.Prisma.UnclosedBlock
import SchemaEvolution.Proofs.Sql.Safety
import SchemaEvolution.Proofs.Sql.Reexport
import SchemaEvolution.Proofs.Sql.Silence
import SchemaEvolution.Proofs.Sql.GrowthReading
import SchemaEvolution.Proofs.Sql.DropOrder
import SchemaEvolution.Proofs.Sql.KeyOrder
import SchemaEvolution.Proofs.Sql.Deferral
import SchemaEvolution.Proofs.Sql.Reports
import SchemaEvolution.Proofs.Sql.Row
import SchemaEvolution.Proofs.Sql.Declarations
import SchemaEvolution.Proofs.Sql.DefaultRoundTrip
import SchemaEvolution.Proofs.Sql.TypeChange
import SchemaEvolution.Proofs.Sql.Refusal
import SchemaEvolution.Proofs.Sql.ClauseEntries
import SchemaEvolution.Proofs.Sql.CutTable
import SchemaEvolution.Proofs.Sql.Spans
import SchemaEvolution.Proofs.Sql.StatementOrder
import SchemaEvolution.Proofs.Json.Contents
import SchemaEvolution.Proofs.Json.Distinct
import SchemaEvolution.Proofs.Json.Skipping
import SchemaEvolution.Proofs.Overwriting
import SchemaEvolution.Proofs.Drizzle.Progress
import SchemaEvolution.Proofs.CheckNames
import SchemaEvolution.Proofs.SchemaRb.References
import SchemaEvolution.Proofs.KeySpelling
import SchemaEvolution.Proofs.Schema.Relationships
import SchemaEvolution.Proofs.Tbls.Entries
import SchemaEvolution.Proofs.DeclarationOrder
import SchemaEvolution.Proofs.Sql.Handler
import SchemaEvolution.Proofs.Sql.InPlace
