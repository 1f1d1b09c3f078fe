import EntitySql.Schema

-- A fixed registry: a blog, a staff table, and laboratory samples with a
-- column of every type. Ghost is a type that is not registered.

namespace EntitySql.Catalogue

def named (name : Text) : EntityType := ⟨name⟩

def company : EntityType := named "Company"
def author : EntityType := named "Author"
def post : EntityType := named "Post"
def comment : EntityType := named "Comment"
def tag : EntityType := named "Tag"
def employee : EntityType := named "Employee"
def sample : EntityType := named "Sample"
def log : EntityType := named "Log"
def note : EntityType := named "Note"
def broken : EntityType := named "Broken"
def ghost : EntityType := named "Ghost"

def field (property : Text) (member : MemberType) (column : Text) : Field :=
  { property, column, member }

def key (property : Text) (member : MemberType) (column : Text) : Field :=
  { property, column, member, primaryKey := true }

def companyEntity : Entity where
  type := company
  name := "Company"
  table := "companies"
  fields := [key "Id" .int64 "id", field "Name" .string "name"]

def authorEntity : Entity where
  type := author
  name := "Author"
  table := "authors"
  fields :=
    [key "Id" .int64 "id", field "Name" .string "name",
      field "CompanyId" (.optional .int64) "company_id"]
  navigations :=
    [⟨"Company", company, .reference "company_id"⟩, ⟨"Posts", post, .collection "author_id"⟩]

def postEntity : Entity where
  type := post
  name := "Post"
  table := "posts"
  fields :=
    [key "Id" .int64 "id", field "Title" .string "title", field "Views" .int32 "views",
      field "AuthorId" .int64 "author_id", field "CreatedAt" .timestamp "created_at",
      field "Rating" (.optional .double) "rating", field "Labels" (.array .string) "labels"]
  navigations :=
    [⟨"Author", author, .reference "author_id"⟩, ⟨"Comments", comment, .collection "post_id"⟩,
      ⟨"Tags", tag, .manyToMany "post_tags" "post_id" "tag_id"⟩]

def commentEntity : Entity where
  type := comment
  name := "Comment"
  table := "comments"
  fields := [key "Id" .int64 "id", field "PostId" .int64 "post_id", field "Body" .string "body"]

def tagEntity : Entity where
  type := tag
  name := "Tag"
  table := "tags"
  fields := [key "Id" .int64 "id", field "Name" .string "name"]

def employeeEntity : Entity where
  type := employee
  name := "Employee"
  table := "employees"
  fields :=
    [key "Id" .int64 "id", field "Name" .string "name", field "Department" .string "department",
      field "Salary" .double "salary"]

def sampleEntity : Entity where
  type := sample
  name := "Sample"
  table := "lab.samples"
  fields :=
    [{ property := "Uid", column := "uid", member := .uuid, primaryKey := true,
       autoGenerated := true },
      field "Flag" .bool "flag", field "Small" .int32 "small", field "Big" .int64 "big",
      field "Ratio" .double "ratio", field "Text" .string "text",
      field "Stamp" .timestamp "stamp", field "Blob" .bytes "blob",
      { property := "Bits", column := "bits", member := .bytes, type := .bitString },
      field "Doc" .json "doc", field "Addr" .inet "addr",
      { property := "Shape", column := "shape", member := .string, type := .geometric },
      field "Ints" (.array .int32) "ints", field "Longs" (.array .int64) "longs",
      field "Doubles" (.array .double) "doubles", field "Texts" (.array .string) "texts",
      field "Uuids" (.array .uuid) "uuids", field "Grid" (.array (.array .int32)) "grid",
      field "OFlag" (.optional .bool) "o_flag", field "OSmall" (.optional .int32) "o_small",
      field "OText" (.optional .string) "o_text", field "OUid" (.optional .uuid) "o_uid",
      field "OStamp" (.optional .timestamp) "o_stamp",
      { property := "OBits", column := "o_bits", member := .optional .bytes, type := .bitString },
      field "ODoc" (.optional .json) "o_doc", field "OAddr" (.optional .inet) "o_addr",
      { property := "OShape", column := "o_shape", member := .optional .string,
        type := .geometric },
      field "OInts" (.optional (.array .int32)) "o_ints", field "Plain" .string "Plain",
      field "Case" .int64 "case_a", field "CASE" .int64 "case_b",
      field "Odd" .string "odd \"col\".x",
      { property := "ParentUid", column := "parent_uid", member := .optional .uuid,
        autoGenerated := true }]
  navigations :=
    [⟨"Parent", sample, .reference "parent_uid"⟩, ⟨"Children", sample, .collection "PARENT_UID"⟩,
      ⟨"Peers", sample, .manyToMany "lab.sample_peers" "left_uid" "right_uid"⟩]

def logEntity : Entity where
  type := log
  name := "Log"
  table := "logs"
  fields := [field "Message" .string "message", field "Level" .int32 "level"]
  navigations := [⟨"Notes", note, .collection "log_id"⟩]

def noteEntity : Entity where
  type := note
  name := "Note"
  table := "notes"
  fields :=
    [field "iD" .int64 "note_id", field "Text" .string "text",
      field "LogId" (.optional .int64) "log_id"]
  navigations := [⟨"Log", log, .reference "log_id"⟩]

def brokenEntity : Entity where
  type := broken
  name := "Broken"
  table := "broken"
  fields :=
    [field "Id" .int64 "id", field "LogId" .int64 "log_id", field "GhostId" .int64 "ghost_id"]
  navigations :=
    [⟨"NoFk", company, .reference "company_id"⟩, ⟨"ToLog", log, .reference "log_id"⟩,
      ⟨"BadKids", comment, .collection "broken_id"⟩, ⟨"Ghost", ghost, .reference "ghost_id"⟩,
      ⟨"Logs", log, .manyToMany "broken_logs" "broken_id" "log_id"⟩]

def registry : Registry :=
  ⟨[companyEntity, authorEntity, postEntity, commentEntity, tagEntity, employeeEntity,
    sampleEntity, logEntity, noteEntity, brokenEntity]⟩

end EntitySql.Catalogue
