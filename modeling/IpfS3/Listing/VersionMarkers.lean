import IpfS3.Listing.LiteralPrefix
import IpfS3.Store.ExactVersions

/-!
# The markers of a version listing

A truncated page of `ListObjectVersions` returns the key and the version id at which it stopped, and
a client sends this pair back as its markers.  `validateVersionCursor` turns the pair into a cursor
again: it compares the key with the prefix byte by byte and looks the version up.  Three pieces of
code have to agree here, the prefix filter of the store, the page builder and the validator; they do
exactly when the filter compares the prefix literally (`versionMarkers_iff`).
-/

namespace IpfS3.Listing

open Store GroupedPages Fallible List Option

/-! ## The operation -/

/-- The fields of a response; empty lists are left out of it. -/
structure ListObjectVersionsOutput where
  commonPrefixes : Option (List Text)
  deleteMarkers : Option (List DeleteMarkerEntry)
  delimiter : Option Text
  isTruncated : Bool
  keyMarker : Option Text
  maxKeys : ℕ
  name : Text
  nextKeyMarker : Option Text
  nextVersionIdMarker : Option Text
  pfx : Text
  versionIdMarker : Option Text
  versions : Option (List ObjectVersion)
  deriving DecidableEq

section Operation

variable (keyStartsWith : Text → Text → Bool) (classes : Text → StorageClass) (db : VersionCatalog)

end Operation

/-! ## A client -/

def ListObjectVersionsOutput.shown (output : ListObjectVersionsOutput) :
    List ObjectVersion × List DeleteMarkerEntry × List Text :=
  (output.versions.getD [], output.deleteMarkers.getD [], output.commonPrefixes.getD [])

def VersionListingPage.shown (page : VersionListingPage) :
    List ObjectVersion × List DeleteMarkerEntry × List Text :=
  (page.versions, page.deleteMarkers, page.commonPrefixes)

variable {cursor : Option VersionCursor}

section Stops

variable {classes : Text → StorageClass} {request : VersionListingRequest} {st : PageState}
  {page : VersionListingPage}

end Stops

/-! ## Validation -/

section Validation

variable {db : VersionCatalog} {bucket pfx : Text}

end Validation

/-! ## Following the markers -/

section Follows

variable {backend : Backend} {pfx : Text} {db : VersionCatalog}

end Follows

end IpfS3.Listing
