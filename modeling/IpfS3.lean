import IpfS3.Crypto.GetBody
import IpfS3.Lifecycle.AttemptBudget
import IpfS3.Lifecycle.CanonicalForm
import IpfS3.Lifecycle.DueDates
import IpfS3.Lifecycle.RetentionRuns
import IpfS3.Lifecycle.ScanCoverage
import IpfS3.Listing.VersionMarkers
import IpfS3.Multipart.InputBudget
import IpfS3.Multipart.ZipAssembly
import IpfS3.Ownership.Revocation
import IpfS3.Ownership.ZipAdmission
import IpfS3.Pinning.FairClaims
import IpfS3.Pinning.PolicyIdentity
import IpfS3.Pinning.Quota
import IpfS3.Pinning.Tagging
import IpfS3.S3.Query
import IpfS3.Store.Undelete
import IpfS3.Store.VersionFrame
import IpfS3.Zip.ExtractRecords
import IpfS3.Zip.FailureMessage
import IpfS3.Zip.HeaderProbe
