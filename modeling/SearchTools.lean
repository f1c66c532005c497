import SearchTools.Common.Comments
import SearchTools.Common.RoundTrip
import SearchTools.Common.Settings
import SearchTools.Conv2.Buffer
import SearchTools.Conv2.DoAll
import SearchTools.Conv2.Letters
import SearchTools.Conv2.Marks
import SearchTools.Conv2.Repair
import SearchTools.Conv2.Suggestions
import SearchTools.Libevent.Answers
import SearchTools.Libevent.Dispatch
import SearchTools.Libevent.Queues
import SearchTools.Libevent.Service
import SearchTools.Libevent.Uri
import SearchTools.Library.Html
import SearchTools.Stemmer2.Segmentation
import SearchTools.Stemmer2.Stem
import SearchTools.Testbed.Bias
import SearchTools.Testbed.Choice
import SearchTools.Testbed.Config
import SearchTools.Testbed.Draws
import SearchTools.Testbed.Page
import SearchTools.Testbed.PerfectTable
import SearchTools.Testbed.Safety
import SearchTools.Testbed.Table
