import FilterClause.Main
import FilterClause.Proofs.Call
import FilterClause.Proofs.Emission.Walk
import FilterClause.Proofs.Emission.FirstOffence
import FilterClause.Proofs.Emission.Domain
import FilterClause.Proofs.Skeleton
import FilterClause.Proofs.Emission.Rendering
import FilterClause.Proofs.Call.Delimiters
import FilterClause.Proofs.Skeleton.Normal
import FilterClause.Proofs.Skeleton.Reader
import FilterClause.Proofs.Skeleton.Readback
import FilterClause.Proofs.Emission.Readability
import FilterClause.Proofs.Emission.Noninterference
import FilterClause.Proofs.Emission.Pieces
import FilterClause.Proofs.Emission.Placeholders
import FilterClause.Proofs.Session
import FilterClause.Proofs.Emission.Precedence
import FilterClause.Proofs.Emission.Safety
import FilterClause.Proofs.Expression.Json
import FilterClause.Proofs.Expression.Normalising
import FilterClause.Proofs.Emission.Depth
import FilterClause.Proofs.Emission.Joined
import FilterClause.Proofs.Emission.Conversions
import FilterClause.Proofs.Emission.Resolution
import FilterClause.Proofs.CommandLine.Run
import FilterClause.Proofs.CommandLine.Explanation
import FilterClause.Proofs.CommandLine.Mapping
import FilterClause.Proofs.Resolver.PlainColumn
import FilterClause.Proofs.Expression.Spelling
