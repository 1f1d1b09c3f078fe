import EntitySql.Expr.Builder
import EntitySql.Proofs.Conversion.ArrayLiteral
import EntitySql.Proofs.Conversion.Bytes
import EntitySql.Proofs.Conversion.Integer
import EntitySql.Proofs.Conversion.RoundTrip
import EntitySql.Proofs.Eval.Comparison
import EntitySql.Proofs.Eval.Integers
import EntitySql.Proofs.Include.Grammar
import EntitySql.Proofs.Include.Prefixes
import EntitySql.Proofs.Inet.RoundTrip
import EntitySql.Proofs.LruCache.Runs
import EntitySql.Proofs.Query.Aggregates
import EntitySql.Proofs.Query.Aliases
import EntitySql.Proofs.Query.Declarations
import EntitySql.Proofs.Query.Extending
import EntitySql.Proofs.Query.Having
import EntitySql.Proofs.Query.KeyTables
import EntitySql.Proofs.Query.Paging
import EntitySql.Proofs.Query.Partition
import EntitySql.Proofs.Query.Statements
import EntitySql.Proofs.Query.Substitution
import EntitySql.Proofs.Query.Transparency
import EntitySql.Proofs.Rows.Chunks
import EntitySql.Proofs.Rows.Faults
import EntitySql.Proofs.Rows.Layout
import EntitySql.Proofs.Settings.ConnectionString
import EntitySql.Proofs.Settings.Cursor
import EntitySql.Proofs.Settings.Pairs
import EntitySql.Proofs.Sql.Accounting
import EntitySql.Proofs.Sql.Comments
import EntitySql.Proofs.Sql.Containment
import EntitySql.Proofs.Sql.Content
import EntitySql.Proofs.Sql.Delimited
import EntitySql.Proofs.Sql.Nulls
import EntitySql.Proofs.Sql.Searching
import EntitySql.Proofs.Timestamp.Months
import EntitySql.Proofs.Timestamp.RoundTrip
import EntitySql.Proofs.Uuid.Layouts
import EntitySql.Proofs.Value.WeakOrder
import EntitySql.Repository
import EntitySql.Settings.ConnectionString
