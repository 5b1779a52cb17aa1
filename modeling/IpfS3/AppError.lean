import IpfS3.Text

/-!
# Errors of the application

The variants of `AppError` that the modelled operations return, with their texts.
-/

namespace IpfS3

inductive AppError where
  | internal (message : String)
  | invalidArgument (message : String)
  | noSuchBucket (bucket : Text)
  | noSuchKey (name : Text)
  | noSuchVersion (bucket key versionId : Text)
  | crypto (message : String)
  | kuboRpc (detail : String)
  | database (message : String)
  | invalidPinningRequest (message : String)
  | invalidLifecycleConfiguration (message : String)
  | noSuchImportJob
  | importIdempotencyConflict
  | staleImportOwnership
  | staleContentMutation
  | invalidZipParameter (value : Text)
  | invalidZipEntry (message : Text)
  | zipSlip (value : Text)
  | unsupportedZipEntry (message : Text)
  | zipArchiveRejected (message : Text)
  deriving DecidableEq

def uniqueViolation : AppError := .database "UNIQUE constraint failed"

abbrev AppResult (α : Type*) := Except AppError α

end IpfS3
