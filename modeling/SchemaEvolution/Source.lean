import SchemaEvolution.Drizzle.Import
import SchemaEvolution.Format
import SchemaEvolution.Prisma.Import
import SchemaEvolution.Schema.Import
import SchemaEvolution.SchemaRb.Import
import SchemaEvolution.Sql.Import
import SchemaEvolution.Tbls.Import

/-!
# Reading sources

One entry point for sources in every format.
-/

namespace SchemaEvolution

/-- Reads a source in a format; `auto` is told from the text. -/
def importSource (format : Format) (source : String) : Import :=
  match format.resolve source with
  | .auto | .postgres => Schema.ofSql source
  | .prisma => Schema.ofPrisma source
  | .schemaRb => Schema.ofSchemaRb source
  | .drizzle => Schema.ofDrizzle source
  | .tbls => Schema.ofTbls source
  | .native => Schema.ofDocument source

end SchemaEvolution
