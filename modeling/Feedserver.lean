import Feedserver.Articles.Payloads
import Feedserver.Buffer.FeedArticle
import Feedserver.Buffer.FeedList
import Feedserver.Buffer.Modifiers
import Feedserver.Buffer.VcString
import Feedserver.Memory.Serving
import Feedserver.Options.Configuration
import Feedserver.Records.Payloads
import Feedserver.Records.RoundTrip
import Feedserver.Serving.Bodies
import Feedserver.Serving.Convergence
import Feedserver.Serving.Crashes
import Feedserver.Serving.Failure
import Feedserver.Serving.Isolation
import Feedserver.Serving.Listings
import Feedserver.Serving.ListingText
import Feedserver.Serving.Moments
import Feedserver.Serving.Refinement
import Feedserver.Serving.ResponseText
import Feedserver.Serving.Scans
import Feedserver.Serving.Service
import Feedserver.Serving.Shutdown
import Feedserver.Serving.Submission
import Feedserver.Serving.WholeContents
