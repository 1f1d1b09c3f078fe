import EntitySql.FieldType
import EntitySql.Value.Printer

-- Everything that can go wrong, as causes. The wording of a cause is written
-- in one place, by its message function.

namespace EntitySql

-- A value that cannot be read, stored or written as the type in question.
inductive ConversionFault where
  | invalidUuid (t : Text)
  | invalidTimestamp (t : Text)
  | invalidInet (t : Text)
  | invalidArrayLiteral (t : Text)
  | invalidBitString (t : Text)
  | invalidJson
  | wrongKind (actual expected : Kind)
  | notConvertible (raw : Value) (target : FieldType)
  | notReadableAs (raw : Value) (target : FieldType)
  | noNetworkAddress (kind : Kind)
  | noBitString (kind : Kind)
  | arrayColumn (databaseType : Text) (target : FieldType)
  | geometricTarget (target : FieldType)
  | outsideInt32 (n : Int)
  | nulInLiteral

def ConversionFault.message : ConversionFault → Text
  | .invalidUuid t => "Invalid UUID text: '" ++ t ++ "'"
  | .invalidTimestamp t => "Invalid timestamp text: '" ++ t ++ "'"
  | .invalidInet t => "Invalid network address: '" ++ t ++ "'"
  | .invalidArrayLiteral t => "Invalid array literal: '" ++ t ++ "'"
  | .invalidBitString t => "Invalid bit string: '" ++ t ++ "'"
  | .invalidJson => "Invalid JSON text:"
  | .wrongKind actual expected =>
    "Value of kind '" ++ actual.name ++ "' cannot be read as '" ++ expected.name ++ "'"
  | .notConvertible raw target =>
    "Cannot convert value of kind '" ++ raw.kind.name ++ "' (" ++ raw.text ++ ") to field type '" ++
      target.name ++ "'"
  | .notReadableAs raw target =>
    "Cannot convert " ++ raw.kind.name ++ " to " ++ target.name ++ ": " ++ raw.text
  | .noNetworkAddress kind => "Cannot convert " ++ kind.name ++ " to network address"
  | .noBitString kind => "Cannot convert " ++ kind.name ++ " to bit string"
  | .arrayColumn databaseType target =>
    "Array column '" ++ databaseType ++ "' cannot be mapped to scalar field type '" ++
      target.name ++ "'"
  | .geometricTarget target =>
    "Geometric value can only be mapped to a textual field, not '" ++ target.name ++ "'"
  | .outsideInt32 n => "Value " ++ Text.ofInt n ++ " does not fit into int32"
  | .nulInLiteral => "String literal contains a NUL character"

-- Why a dotted include path is refused.
inductive PathFault where
  | blank
  | tooLong (path : Text)
  | invalidSequence (path : Text)
  | emptySegment
  | segmentTooLong (segment : Text)
  | badStart (segment : Text)
  | badByte (byte : UInt8) (segment : Text)
  | reserved (segment : Text)
  | tooDeep (depth : Nat) (maxDepth : Int) (path : Text)
  | repetition (segment path : Text)
  deriving DecidableEq

def PathFault.message : PathFault → Text
  | .blank => "Include path cannot be empty or whitespace"
  | .tooLong path => "Include path is too long (max 500 characters): " ++ path
  | .invalidSequence path => "Include path contains invalid sequences: " ++ path
  | .emptySegment => "Include path segments cannot be empty"
  | .segmentTooLong segment =>
    "Include path segment is too long (max 64 characters): " ++ segment
  | .badStart segment => "Include path segment must start with a letter or underscore: " ++ segment
  | .badByte byte segment =>
    "Include path segment contains invalid character '" ++ byte :: ("': " ++ segment)
  | .reserved segment => "Include path contains potentially dangerous content: " ++ segment
  | .tooDeep depth maxDepth path =>
    "Include path depth (" ++ Text.ofNat depth ++ ") exceeds maximum allowed depth (" ++
      Text.ofInt maxDepth ++ "): " ++ path
  | .repetition segment path =>
    "Include path contains suspicious repetition of '" ++ segment ++ "': " ++ path

-- The part of an expression that was left empty.
inductive Operand where
  | left
  | right
  | only
  | argument
  | condition
  | branch
  | element
  | owner
  | target
  | selector
  | lambdaParameter
  | lambdaBody
  deriving DecidableEq

def Operand.name : Operand → Text
  | .left => "left operand"
  | .right => "right operand"
  | .only => "operand"
  | .argument => "argument"
  | .condition => "condition"
  | .branch => "branch"
  | .element => "array element"
  | .owner => "member owner"
  | .target => "method target"
  | .selector => "aggregate selector"
  | .lambdaParameter => "lambda parameter"
  | .lambdaBody => "lambda body"

-- A clause that cannot be registered once queries have been combined.
inductive Clause where
  | whereClause
  | groupBy
  | having
  | includes
  deriving DecidableEq

def Clause.name : Clause → Text
  | .whereClause => "WHERE"
  | .groupBy => "GROUP BY"
  | .having => "HAVING"
  | .includes => "Include"

-- Something that a query part must not lack.
inductive Requirement where
  | wherePredicate
  | rawWhere
  | inQuery
  | inSql
  | existsQuery
  | orderSelector
  | groupKey
  | havingPredicate
  | cteName
  | caseBranch
  | setQuery
  | rawJoin
  | aggregateSelector
  | sql
  deriving DecidableEq

def Requirement.message : Requirement → Text
  | .wherePredicate => "WHERE predicate must not be empty"
  | .rawWhere => "Raw WHERE clause must not be empty"
  | .inQuery => "IN subquery must not be null"
  | .inSql => "IN subquery SQL must not be empty"
  | .existsQuery => "EXISTS subquery must not be null"
  | .orderSelector => "ORDER BY selector must not be empty"
  | .groupKey => "GROUP BY key selector must not be empty"
  | .havingPredicate => "HAVING predicate must not be empty"
  | .cteName => "CTE name must not be empty"
  | .caseBranch => "CASE expression requires at least one WHEN branch"
  | .setQuery => "Set operation requires a query"
  | .rawJoin => "Raw JOIN must not be empty"
  | .aggregateSelector => "Aggregate requires a selector"
  | .sql => "SQL must not be empty"

-- A use that the rules of the library forbid.
inductive ContractFault where
  | missing (what : Requirement)
  | emptyExpression (operand : Operand)
  | emptyIdentifierSegment
  | nulInIdentifier
  | noFallbackConverter
  | typeWithoutColumn (entity : Text)
  | typeChange (column : Text) (declared requested : FieldType)
  | selectorWithoutParameter (expression : Text)
  | lambdaOverNonParameter
  | emptyCompilation
  | emptyHaving
  | emptyUpdate (expression : Text)
  | havingWithoutGroupColumns
  | havingWithoutGroupBy
  | compositeKey (expression : Text)
  | path (fault : PathFault)
  | unmappedForeignKey (column entity : Text)
  | noKeyToJoin (entity : Text)
  | junctionWithoutKeys (navigation : Text)
  | nullKey (column entity : Text) (row : Nat)
  | rowWidth (row width expected : Nat)
  | ordinalOutOfRange
  | notOnRow
  | nthBelowOne
  | windowColumn (function : Text)
  | incompleteServices
  | afterSetOperation (clause : Clause)
  | includeWithCustomSelect
  | customSelectWithIncludes
  | thenIncludeAlone
  | cteBody (name : Text)
  | negativeLimit
  | negativeOffset
  | emptyAggregate (aliasName : Text)
  | aggregatesWithoutKeys
  | placeholderWithoutValue (index : Nat) (sql : Text)
  | noConnectionProvider
  | noValueConverter
  | noGroupKey
  | noAggregate
  | noExecutor
  | noRegistry

def ContractFault.message : ContractFault → Text
  | .missing what => what.message
  | .emptyExpression operand => "Empty expression used as " ++ operand.name
  | .emptyIdentifierSegment => "Identifier segment cannot be empty"
  | .nulInIdentifier => "Identifier contains a NUL character"
  | .noFallbackConverter => "PostgresValueConverter requires a fallback converter"
  | .typeWithoutColumn entity =>
    "as() requires a preceding column() on entity '" ++ entity ++ "'"
  | .typeChange column declared requested =>
    "Column '" ++ column ++ "' of type " ++ declared.name ++ " cannot be declared as " ++
      requested.name
  | .selectorWithoutParameter expression =>
    "Aggregate selector must reference a parameter: " ++ expression
  | .lambdaOverNonParameter => "Lambda parameter must be a parameter expression"
  | .emptyCompilation => "Cannot compile an empty expression"
  | .emptyHaving => "Cannot compile an empty HAVING predicate"
  | .emptyUpdate expression => "Update expression assigns no columns: " ++ expression
  | .havingWithoutGroupColumns => "Cannot use HAVING clause without GROUP BY columns"
  | .havingWithoutGroupBy => "HAVING clause can only be used with GROUP BY"
  | .compositeKey expression =>
    "Key of a composite group cannot be compared in HAVING: " ++ expression
  | .path fault => fault.message
  | .unmappedForeignKey column entity =>
    "Foreign key column '" ++ column ++ "' is not mapped on entity '" ++ entity ++ "'"
  | .noKeyToJoin entity => "Entity '" ++ entity ++ "' has no primary key to join on"
  | .junctionWithoutKeys navigation =>
    "Many-to-many navigation '" ++ navigation ++ "' requires primary keys on both entities"
  | .nullKey column entity row =>
    "Primary key column '" ++ column ++ "' of entity '" ++ entity ++ "' is null at row " ++
      Text.ofNat row
  | .rowWidth row width expected =>
    "Row " ++ Text.ofNat row ++ " has " ++ Text.ofNat width ++ " values, expected " ++
      Text.ofNat expected
  | .ordinalOutOfRange => "Column ordinal out of range"
  | .notOnRow => "Reader is not positioned on a row"
  | .nthBelowOne => "NTH_VALUE position must be at least 1"
  | .windowColumn function => function ++ " requires a column"
  | .incompleteServices => "QueryPlan requires a metadata registry and a sanitizer"
  | .afterSetOperation clause =>
    "Cannot add " ++ clause.name ++
      " after a set operation; filter each query before combining them"
  | .includeWithCustomSelect => "Include cannot be combined with a custom SELECT projection"
  | .customSelectWithIncludes => "A custom SELECT projection cannot be combined with includes"
  | .thenIncludeAlone => "ThenInclude requires a preceding Include"
  | .cteBody name => "CTE '" ++ name ++ "' has no query body"
  | .negativeLimit => "LIMIT must not be negative"
  | .negativeOffset => "OFFSET must not be negative"
  | .emptyAggregate aliasName => "Group aggregate '" ++ aliasName ++ "' is empty"
  | .aggregatesWithoutKeys =>
    "Group aggregates can only be rendered with the group key columns"
  | .placeholderWithoutValue index sql =>
    ("Placeholder \x7b" : Text) ++ Text.ofNat index ++ "\x7d has no value in: " ++ sql
  | .noConnectionProvider => "QueryExecutor requires a connection provider"
  | .noValueConverter => "Query services have no value converter"
  | .noGroupKey => "Grouped execution requires a GROUP BY key"
  | .noAggregate => "Group projection requires at least one aggregate"
  | .noExecutor => "Query requires an executor"
  | .noRegistry => "Query requires a metadata registry"

-- Settings that are out of range, missing or malformed.
inductive ConfigurationFault where
  | includeDepth
  | unregisteredEntity (tag : Text)
  | noRegistry
  | blankConnectionString
  | invalidInteger (key value : Text)
  | invalidBoolean (key value : Text)
  | malformedSegment (segment : Text)
  | emptyKey
  | unterminatedQuote (key : Text)
  | textAfterQuote (key : Text)
  | unknownSslMode (value : Text)
  | noHostname
  | noDatabase
  | maxIncludeDepth (depth : Int)
  | negativeTolerance
  | cacheCapacity
  | portOutOfRange (port : Int)
  | poolSizes

def ConfigurationFault.message : ConfigurationFault → Text
  | .includeDepth => "Maximum include depth must be at least 1"
  | .unregisteredEntity tag => "Entity type '" ++ tag ++ "' is not registered"
  | .noRegistry => "Repository requires a metadata registry"
  | .blankConnectionString => "Connection string cannot be empty or whitespace"
  | .invalidInteger key value => "Invalid integer for '" ++ key ++ "': '" ++ value ++ "'"
  | .invalidBoolean key value => "Invalid boolean for '" ++ key ++ "': '" ++ value ++ "'"
  | .malformedSegment segment => "Malformed connection string segment '" ++ segment ++ "'"
  | .emptyKey => "Connection string contains an empty key"
  | .unterminatedQuote key => "Unterminated quoted value for '" ++ key ++ "'"
  | .textAfterQuote key => "Unexpected text after quoted value for '" ++ key ++ "'"
  | .unknownSslMode value => "Unknown SSL mode '" ++ value ++ "'"
  | .noHostname => "Hostname is required for PostgreSQL connection string"
  | .noDatabase => "Database is required for PostgreSQL connection string"
  | .maxIncludeDepth depth => "max_include_depth must be at least 1, got " ++ Text.ofInt depth
  | .negativeTolerance => "now_heuristic.tolerance_seconds must not be negative"
  | .cacheCapacity => "accessor_cache_capacity must be positive"
  | .portOutOfRange port => "port out of range: " ++ Text.ofInt port
  | .poolSizes => "min_pool_size exceeds max_pool_size"

-- Failures of a computation or of the connection.
inductive EngineFault where
  | divisionByZero (expression : Text)
  | substringStart (expression : Text)
  | noConnection
  | noReader (sql : Text)
  | noPreparedResult (sql : Text)
  | groupColumns (columns keys : Nat) (sql : Text)
  | aggregateColumns (columns expected : Nat)
  | host (message : Text)

def EngineFault.message : EngineFault → Text
  | .divisionByZero expression => "Division by zero in " ++ expression
  | .substringStart expression => "Substring start index out of range in " ++ expression
  | .noConnection => "Connection provider returned no connection"
  | .noReader sql => "Connection returned no reader for: " ++ sql
  | .noPreparedResult sql => "No scripted result for: " ++ sql
  | .groupColumns columns keys sql =>
    "Group query returned " ++ Text.ofNat columns ++ " column(s) for " ++ Text.ofNat keys ++
      " key(s): " ++ sql
  | .aggregateColumns columns expected =>
    "Group projection returned " ++ Text.ofNat columns ++ " aggregate column(s), expected " ++
      Text.ofNat expected
  | .host message => message

-- An expression that has no value or no SQL form.
inductive Unsupported where
  | comparison (left right : Kind)
  | arithmetic (left right : Kind)
  | noValue (expressionKind : Text)
  | negation
  | notAnInitializer
  | bareParameter
  | initializer
  | member (name : Text)
  | keyOutsideHaving
  | groupMember
  | missingArgument (method : Text) (position : Nat)
  | intervalAmount
  | aggregateOutsideHaving (method : Text)
  | aggregateSelector (method : Text)
  | containsTarget (kind : Kind)
  | nullPattern

def Unsupported.message : Unsupported → Text
  | .comparison left right => "Cannot compare " ++ left.name ++ " with " ++ right.name
  | .arithmetic left right => "Arithmetic on " ++ left.name ++ " and " ++ right.name
  | .noValue expressionKind => expressionKind ++ " cannot be evaluated as a value"
  | .negation => "Negation of a non-numeric value"
  | .notAnInitializer => "Update expression must be a member initializer"
  | .bareParameter => "A parameter cannot be used as a value"
  | .initializer => "Member initializers are only supported in update expressions"
  | .member name => "Member '" ++ name ++ "' cannot be translated"
  | .keyOutsideHaving => "The group key is only available in HAVING predicates"
  | .groupMember => "Only Key can be read from a group"
  | .missingArgument method position =>
    "Method '" ++ method ++ "' is missing argument " ++ Text.ofNat position
  | .intervalAmount => "Interval amount must be numeric"
  | .aggregateOutsideHaving method =>
    "Aggregate '" ++ method ++ "' is only supported in HAVING predicates"
  | .aggregateSelector method => "Aggregate '" ++ method ++ "' requires a selector"
  | .containsTarget kind =>
    "Contains target must be a string or a collection, got " ++ kind.name
  | .nullPattern => "LIKE pattern must not be null"

-- A name that leads to no entity, property, navigation or column.
inductive Unresolved where
  | entityType
  | mappedColumn (property entity : Text)
  | mappedProperty (property entity : Text)
  | member (name : Text) (kind : Kind)
  | notIncluded (path : Text)
  | navigation (name entity : Text)
  | column (name entity : Text)

def Unresolved.message : Unresolved → Text
  | .entityType => "Entity type is not registered"
  | .mappedColumn property entity =>
    "Property '" ++ property ++ "' is not a mapped column of entity '" ++ entity ++ "'"
  | .mappedProperty property entity =>
    "Property '" ++ property ++ "' is not mapped on entity '" ++ entity ++ "'"
  | .member name kind =>
    "Member '" ++ name ++ "' is not available on a " ++ kind.name ++ " value"
  | .notIncluded path => "Navigation '" ++ path ++ "' is not included in the query"
  | .navigation name entity =>
    "Navigation property '" ++ name ++ "' not found on entity '" ++ entity ++ "'"
  | .column name entity => "Column '" ++ name ++ "' is not mapped on entity '" ++ entity ++ "'"

inductive MappedRole where
  | field
  | groupKey
  deriving DecidableEq

inductive Error where
  | conversion (fault : ConversionFault)
  | contract (fault : ContractFault)
  | configuration (fault : ConfigurationFault)
  | engine (fault : EngineFault)
  | cancelled
  | unsupported (cause : Unsupported) (expression : Text)
  | unsupportedMethod (method expression : Text)
  | unresolved (cause : Unresolved) (reference : Text)
  | mapping (role : MappedRole) (column property : Text) (row : Nat) (cause : Error)
  | placeholderOverflow

namespace Error

instance : Inhabited Error := ⟨.cancelled⟩

def fullMessage : Error → Text
  | .conversion fault => fault.message
  | .contract fault => fault.message
  | .configuration fault => fault.message
  | .engine fault => fault.message
  | .cancelled => "Operation was cancelled"
  | .unsupported cause expression => cause.message ++ ": " ++ expression
  | .unsupportedMethod method expression =>
    "Method '" ++ method ++ "' is not supported: " ++ expression
  | .unresolved cause reference => cause.message ++ ": " ++ reference
  | .mapping .field column property row cause =>
    "Error mapping column '" ++ column ++ "' to property '" ++ property ++ "' at row " ++
      Text.ofNat row ++ ": " ++ fullMessage cause
  | .mapping .groupKey column _ row cause =>
    "Error mapping group key column '" ++ column ++ "' at row " ++ Text.ofNat row ++ ": " ++
      fullMessage cause
  | .placeholderOverflow => []

-- A message ends before its first NUL.
def message (e : Error) : Text := e.fullMessage.untilNul

end Error

-- A computation that may fail.
abbrev Result := Except Error

end EntitySql
